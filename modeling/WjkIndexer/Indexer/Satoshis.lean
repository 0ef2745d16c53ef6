import WjkIndexer.Indexer.Direct
import WjkIndexer.Inscriptions.Followed

/-!
The satoshis of a valid block: when the fees are charged without an underflow, and where every
tracked offset goes.
-/

namespace WjkIndexer

open FiniteTable

def knownOutputs (chain : Chain) (block : Block) : Utxo :=
  chain.utxo.extendList (block.txs.flatMap Tx.created)

def worthOf (chain : Chain) (block : Block) (outpoint : OutPoint) : Nat :=
  (((knownOutputs chain block).get outpoint).map EvaluatedTxOut.value).getD 0

structure InRange (prevouts : Table OutPoint TxPrevout) (block : Block) : Prop where
  inputs : ∀ tx ∈ block.txs, (tx.inputValues prevouts).sum < u64Bound
  outputs : ∀ tx ∈ block.txs, tx.outputValues.sum < u64Bound
  fees : feesOf prevouts (block.txs.filter fun tx => !tx.isCoinbase) < u64Bound

instance (prevouts : Table OutPoint TxPrevout) (block : Block) :
    Decidable (InRange prevouts block) :=
  decidable_of_iff ((∀ tx ∈ block.txs, (tx.inputValues prevouts).sum < u64Bound) ∧
      (∀ tx ∈ block.txs, tx.outputValues.sum < u64Bound) ∧
      feesOf prevouts (block.txs.filter fun tx => !tx.isCoinbase) < u64Bound)
    ⟨fun ⟨inputs, outputs, fees⟩ => ⟨inputs, outputs, fees⟩,
      fun range => ⟨range.inputs, range.outputs, range.fees⟩⟩

section Known

variable {env : Env} {db : DB} {chain : Chain} {block : Block}

theorem known_created (distinct : (block.txs.map Tx.hash).Nodup) {tx : Tx}
    (listed : tx ∈ block.txs) {vout : Nat} {output : EvaluatedTxOut}
    (present : tx.outputs[vout]? = some output) :
    (knownOutputs chain block).get ⟨tx.hash, vout⟩ = some output := by
  refine Table.get_extendList_unique ?_ ?_ _
  · exact List.mem_flatMap.mpr ⟨tx, listed, mem_created.mpr present⟩
  · intro other member
    obtain ⟨maker, makes, made⟩ := List.mem_flatMap.mp member
    obtain ⟨own, found⟩ := created_iff.mp made
    obtain rfl := List.inj_on_of_nodup_map distinct listed makes own
    rw [present] at found
    exact (Option.some.inj found).symm

theorem known_older {outpoint : OutPoint} (older : outpoint.txid ∉ block.txids) :
    (knownOutputs chain block).get outpoint = chain.utxo.get outpoint := by
  refine Table.get_extendList_of_notMem ?_ _
  intro member
  obtain ⟨entry, created, rfl⟩ := List.mem_map.mp member
  obtain ⟨tx, listed, made⟩ := List.mem_flatMap.mp created
  exact older ((created_iff.mp made).1 ▸ mem_txids listed)

theorem known_unspent (valid : ValidBlock env chain.utxo chain.txids block) {outpoint : OutPoint}
    (unspent : outpoint ∉ block.txs.flatMap Tx.spent) {output : EvaluatedTxOut}
    (known : (knownOutputs chain block).get outpoint = some output) :
    (chain.utxo.applyBlock block).get outpoint = some output := by
  have old : ∀ key ∈ chain.utxo.keys, key.txid ∈ chain.txids := fun _ => Chain.utxo_txid
  by_cases own : outpoint.txid ∈ block.txids
  · have created : outpoint ∈ (block.txs.flatMap Tx.created).map Prod.fst := by
      by_contra missing
      rw [knownOutputs, Table.get_extendList_of_notMem missing] at known
      exact valid.txids_disjoint own (old outpoint (Table.mem_keys_iff.mpr ⟨output, known⟩))
    obtain ⟨tx, listed, made⟩ :=
      List.mem_flatMap.mp (Table.mem_of_get_extendList created known)
    obtain ⟨txid, vout⟩ := outpoint
    obtain ⟨rfl, present⟩ := created_iff.mp made
    exact valid.get_created old listed present unspent
  · rw [known_older own] at known
    rw [valid.get_applyBlock own, if_neg unspent, known]

theorem spendable_known (valid : ValidBlock env chain.utxo chain.txids block)
    (knows : KnowsUnspent env db.prevouts chain block) {past : List Tx}
    (before : ∀ tx ∈ past, tx ∈ block.txs) {outpoint : OutPoint} {output : EvaluatedTxOut}
    (present : (chain.utxo.applyTxs past).get outpoint = some output)
    (spendable : env.isProvablyUnspendable output.scriptPubkey = false)
    (spends : outpoint ∈ spentOutpoints block) :
    (knownOutputs chain block).get outpoint = some output ∧
      (spentPrevouts env db block).get outpoint =
        some ⟨env.computeScriptHash output.scriptPubkey, output.value⟩ := by
  have listed := List.mem_toFinset.mpr spends
  rw [spentPrevouts, Table.get_collect, if_pos listed, prevoutOf]
  rcases applyTxs_get present with old | ⟨tx, made, created⟩
  · have older : outpoint.txid ∉ block.txids := fun own =>
      valid.txids_disjoint own (Chain.utxo_txid (Table.mem_keys_iff.mpr ⟨output, old⟩))
    refine ⟨by rw [known_older older, old], ?_⟩
    rw [knows.unspent outpoint ⟨env.computeScriptHash output.scriptPubkey, output.value⟩]
    · rfl
    · rw [old, Option.bind_some, storedOutput, if_neg (by simp [spendable])]
  · obtain ⟨txid, vout⟩ := outpoint
    obtain ⟨rfl, found⟩ := created_iff.mp created
    refine ⟨known_created valid.distinct (before tx made) found, ?_⟩
    have stored := get_createdPrevouts valid.distinct (before tx made) found spendable
    rcases knows.created _ _ stored with vacant | again
    · rw [vacant, Option.none_or]
      exact stored
    · rw [again]
      rfl

theorem payable_block (valid : ValidBlock env chain.utxo chain.txids block)
    (knows : KnowsUnspent env db.prevouts chain block)
    (range : InRange (spentPrevouts env db block) block) {coinbase : Tx} {rest : List Tx}
    (shape : block.txs = coinbase :: rest) {tx : Tx} (listed : tx ∈ rest) :
    Payable (worthOf chain block) (spentPrevouts env db block) tx := by
  obtain ⟨leading, remaining, sameShape, first, others⟩ := valid.shape
  obtain ⟨rfl, rfl⟩ := List.cons.inj (shape.symm.trans sameShape)
  have member : tx ∈ block.txs := by simp [shape, listed]
  obtain ⟨past, future, split, pays⟩ := others.at_mem listed
  have before : ∀ tx ∈ past, tx ∈ block.txs := by
    intro tx early
    simp [shape, split, early]
  have stored : ∀ input ∈ tx.inputs, ∃ output,
      (chain.utxo.applyTxs past).get input.outpoint = some output ∧
      (knownOutputs chain block).get input.outpoint = some output ∧
      (spentPrevouts env db block).get input.outpoint =
        some ⟨env.computeScriptHash output.scriptPubkey, output.value⟩ := by
    intro input spends
    obtain ⟨output, present, spendable⟩ := pays.unspent input spends
    have spent : input.outpoint ∈ spentOutpoints block := by
      rw [spentOutpoints_eq, List.mem_flatMap]
      refine ⟨tx, member, ?_⟩
      rw [Tx.spent, pays.ordinary, if_neg (by decide)]
      exact List.mem_map.mpr ⟨input, spends, rfl⟩
    exact ⟨output, present, spendable_known valid knows before present spendable spent⟩
  refine {
    ordinary := pays.ordinary
    known := ?_
    older := ?_
    funded := ⟨?_, range.inputs tx member⟩
    outputs := ?_
    inputs := ?_ }
  · intro input spends
    obtain ⟨output, _, _, found⟩ := stored input spends
    rw [found]
    rfl
  · intro input spends
    have whole : (coinbase :: past) ++ tx :: future = block.txs := by
      rw [shape, split]
      rfl
    refine valid.spent_later (fun _ => Chain.utxo_txid) whole ?_
    rw [List.flatMap_append, List.mem_append]
    refine Or.inr (List.mem_flatMap.mpr ⟨tx, List.mem_singleton_self _, ?_⟩)
    rw [Tx.spent, pays.ordinary, if_neg (by decide)]
    exact List.mem_map.mpr ⟨input, spends, rfl⟩
  · have values : tx.inputValues (spentPrevouts env db block) = tx.inputs.map fun input =>
        (((chain.utxo.applyTxs past).get input.outpoint).map EvaluatedTxOut.value).getD 0 := by
      refine List.map_congr_left fun input spends => ?_
      obtain ⟨output, present, _, found⟩ := stored input spends
      rw [valueOf, found, present]
      rfl
    rw [values]
    exact pays.funded
  · intro vout output present
    rw [worthOf, known_created valid.distinct member present]
    rfl
  · intro input spends
    obtain ⟨output, _, known, found⟩ := stored input spends
    rw [worthOf, known, valueOf, found]
    rfl

end Known

/-! The fees, with every subtraction checked. -/

namespace Parser

def blockStart (db : DB) (prevouts : Table OutPoint TxPrevout) (cache : TokenCache) : ParseState where
  offsets := db.outpointToInscriptionOffsets.restrict prevouts.keys
  partials := db.outpointToPartials.restrict prevouts.keys
  cache := cache

def checkedFees (env : Env) (db : DB) (height : Nat) (block : Block)
    (prevouts : Table OutPoint TxPrevout) (cache : TokenCache) :
    Option (LeakedInscriptions × Finset Location) := do
  let coinbase ← block.txs.head?
  let leaked ← (blockCalls env prevouts height block.header.timestamp
    (blockStart db prevouts cache) block.txs).foldlM (LeakCall.check prevouts)
      { coinbaseTx := coinbase }
  let locations ← leaked.checkedLeaked
  some (leaked, locations)

end Parser

namespace LeakedInscriptions

theorem checkedLocate_eq (values : List Nat) (vout offset : Nat) :
    checkedLocate values vout offset = some (InscriptionSearcher.locate values vout offset) := by
  induction values generalizing vout offset with
  | nil => rfl
  | cons value rest ih =>
      rw [checkedLocate, InscriptionSearcher.locate]
      split
      · rfl
      · rename_i beyond
        rw [checkedSub_of_le (by omega), Option.bind_some, ih]

theorem checkedLeaked_eq {leaked : LeakedInscriptions}
    (fits : leaked.coinbaseTx.outputValues.sum < u64Bound) :
    leaked.checkedLeaked =
      if leaked.totalAmount ≤ leaked.coinbaseTx.outputValues.sum then
        some leaked.getLeakedInscriptions
      else none := by
  rw [checkedLeaked, checkedReward, u64Sum_eq fits]
  by_cases claimed : leaked.totalAmount ≤ leaked.coinbaseTx.outputValues.sum
  · have reward : leaked.coinbaseReward =
        leaked.coinbaseTx.outputValues.sum - leaked.totalAmount := by
      rw [coinbaseReward, u64Sum_eq fits, u64Sub_eq fits claimed]
    rw [checkedSub_of_le claimed, Option.bind_some, if_pos claimed]
    simp only [checkedLocate_eq, Option.isSome_some, implies_true, if_true, Option.join_some,
      ← reward]
    rfl
  · rw [checkedSub, if_neg claimed, if_neg claimed]
    rfl

theorem getLeaked_inside {leaked : LeakedInscriptions} {location : Location}
    (paid : location ∈ leaked.getLeakedInscriptions) :
    location.outpoint.txid = leaked.coinbaseTx.hash ∧
      ∃ output, leaked.coinbaseTx.outputs[location.outpoint.vout]? = some output ∧
        location.offset < output.value := by
  simp only [getLeakedInscriptions, Finset.mem_biUnion, Option.mem_toFinset, Option.mem_def,
    Option.map_eq_some_iff, Prod.exists] at paid
  obtain ⟨key, _, vout, offset, found, rfl⟩ := paid
  obtain ⟨index, value, same, listed, inside⟩ := InscriptionSearcher.locate_spec found
  rw [Nat.zero_add] at same
  subst same
  simp only [Tx.outputValues, List.getElem?_map, Option.map_eq_some_iff] at listed
  obtain ⟨output, present, rfl⟩ := listed
  exact ⟨rfl, output, present, inside⟩

end LeakedInscriptions

section Block

variable {env : Env} {db : DB} {chain : Chain} {block : Block} {height : Nat} {cache : TokenCache}

def SpentInside (env : Env) (db : DB) (block : Block) : Prop :=
  ∀ outpoint ∈ spentOutpoints block,
    ∀ offset ∈ (db.outpointToInscriptionOffsets.get outpoint).getD ∅,
      offset < valueOf (spentPrevouts env db block) outpoint

instance (env : Env) (db : DB) (block : Block) : Decidable (SpentInside env db block) :=
  inferInstanceAs (Decidable (∀ outpoint ∈ spentOutpoints block,
    ∀ offset ∈ (db.outpointToInscriptionOffsets.get outpoint).getD ∅,
      offset < valueOf (spentPrevouts env db block) outpoint))

def bornInBlock (env : Env) (db : DB) (height : Nat) (block : Block)
    (prevouts : Table OutPoint TxPrevout) (cache : TokenCache) : List Place :=
  match block.txs with
  | [] => []
  | coinbase :: rest => Parser.blockBirths env prevouts height block.header.timestamp 0
      { Parser.blockStart db prevouts cache with leaked := some { coinbaseTx := coinbase } } rest

theorem spent_listed {outpoint : OutPoint} :
    outpoint ∈ spentOutpoints block ↔
      ∃ tx ∈ block.txs, tx.isCoinbase = false ∧ ∃ input ∈ tx.inputs, input.outpoint = outpoint := by
  simp only [spentOutpoints, List.mem_flatMap, List.mem_filter, Bool.not_eq_true', List.mem_map,
    and_assoc]

theorem fees_rest (valid : ValidBlock env chain.utxo chain.txids block) {coinbase : Tx}
    {rest : List Tx} (shape : block.txs = coinbase :: rest) :
    (block.txs.filter fun tx => !tx.isCoinbase) = rest := by
  obtain ⟨leading, remaining, sameShape, first, others⟩ := valid.shape
  obtain ⟨rfl, rfl⟩ := List.cons.inj (shape.symm.trans sameShape)
  rw [shape, List.filter_cons_of_neg (by simp [first]), List.filter_eq_self]
  intro tx listed
  obtain ⟨_, _, _, pays⟩ := others.at_mem listed
  rw [pays.ordinary]
  rfl

theorem block_carried (valid : ValidBlock env chain.utxo chain.txids block)
    (knows : KnowsUnspent env db.prevouts chain block)
    (range : InRange (spentPrevouts env db block) block) (inside : SpentInside env db block)
    {coinbase : Tx} {rest : List Tx} (shape : block.txs = coinbase :: rest) :
    ∃ final, block.txs.foldlM (Parser.parseTx env (spentPrevouts env db block) height
        block.header.timestamp) (Parser.blockStart db (spentPrevouts env db block) cache) =
          .ok final ∧
      Sized (worthOf chain block) final.offsets ∧
      Carried (spentPrevouts env db block)
        (Parser.blockCalls env (spentPrevouts env db block) height block.header.timestamp
          (Parser.blockStart db (spentPrevouts env db block) cache) block.txs)
        (feesOf (spentPrevouts env db block) rest)
        (Place.followTxs (spentPrevouts env db block) 0 rest)
        (bornInBlock env db height block (spentPrevouts env db block) cache)
        { Parser.blockStart db (spentPrevouts env db block) cache with
          leaked := some { coinbaseTx := coinbase } } final := by
  obtain ⟨leading, remaining, sameShape, first, others⟩ := valid.shape
  obtain ⟨rfl, rfl⟩ := List.cons.inj (shape.symm.trans sameShape)
  have payable : ∀ tx ∈ rest,
      Payable (worthOf chain block) (spentPrevouts env db block) tx :=
    fun tx listed => payable_block valid knows range shape listed
  have fees := range.fees
  rw [fees_rest valid shape] at fees
  have sized : Sized (worthOf chain block)
      (db.outpointToInscriptionOffsets.restrict (spentPrevouts env db block).keys) := by
    intro outpoint offset tracked
    rw [Table.get_restrict] at tracked
    split at tracked
    · rename_i loaded
      obtain ⟨prevout, found⟩ := Table.mem_keys_iff.mp loaded
      rw [spentPrevouts, Table.get_collect] at found
      split at found
      · rename_i spends
        have spent := List.mem_toFinset.mp spends
        obtain ⟨tx, member, ordinary, input, listed, same⟩ := spent_listed.mp spent
        rw [shape, List.mem_cons] at member
        rcases member with rfl | later
        · rw [first] at ordinary
          cases ordinary
        · have value := (payable tx later).inputs input listed
          rw [same] at value
          rw [value]
          exact inside outpoint spent offset tracked
      · cases found
    · cases tracked
  obtain ⟨final, parsed, still, carried⟩ := @parseTxs_carried env (spentPrevouts env db block)
    (worthOf chain block) height block.header.timestamp 0 rest payable
    { Parser.blockStart db (spentPrevouts env db block) cache with
      leaked := some { coinbaseTx := coinbase } } sized { coinbaseTx := coinbase } rfl rfl
    (by rw [Nat.zero_add]; exact fees)
  have begins : Parser.parseTx env (spentPrevouts env db block) height block.header.timestamp
      (Parser.blockStart db (spentPrevouts env db block) cache) coinbase =
        .ok { Parser.blockStart db (spentPrevouts env db block) cache with
          leaked := some { coinbaseTx := coinbase } } := by
    rw [Parser.parseTx, if_pos first]
  refine ⟨final, ?_, still, ?_⟩
  · rw [shape, List.foldlM_cons, begins]
    exact parsed
  · have calls : Parser.txCalls env (spentPrevouts env db block) height block.header.timestamp
        (Parser.blockStart db (spentPrevouts env db block) cache) coinbase = [] := by
      rw [Parser.txCalls, if_pos first]
    rw [bornInBlock, shape, Parser.blockCalls, calls, begins]
    exact carried

/-- The fees of a block go through: no subtraction underflows, with what the parser computes as
the result, and all that leaks is paid out inside an output of the coinbase. -/
structure FeesSafe (env : Env) (db : DB) (height : Nat) (block : Block)
    (prevouts : Table OutPoint TxPrevout) (cache : TokenCache) : Prop where
  checked : ∃ leaked, Parser.checkedFees env db height block prevouts cache =
      some (leaked, leaked.getLeakedInscriptions) ∧
    ∃ final, block.txs.foldlM (Parser.parseTx env prevouts height block.header.timestamp)
      (Parser.blockStart db prevouts cache) = .ok final ∧ final.leaked = some leaked
  paid : ∀ leaked locations, Parser.checkedFees env db height block prevouts cache =
      some (leaked, locations) → ∀ location ∈ locations, ∃ coinbase ∈ block.txs.head?,
    location.outpoint.txid = coinbase.hash ∧
      ∃ output, coinbase.outputs[location.outpoint.vout]? = some output ∧
        location.offset < output.value

/-- The fees of a valid block go through exactly when its coinbase pays out at least the fees
of its other transactions. -/
theorem feesSafe_iff (valid : ValidBlock env chain.utxo chain.txids block)
    (knows : KnowsUnspent env db.prevouts chain block)
    (range : InRange (spentPrevouts env db block) block) (inside : SpentInside env db block) :
    FeesSafe env db height block (spentPrevouts env db block) cache ↔
      ∀ coinbase ∈ block.txs.head?,
        feesOf (spentPrevouts env db block) (block.txs.filter fun tx => !tx.isCoinbase) ≤
          coinbase.outputValues.sum := by
  obtain ⟨coinbase, rest, shape, first, _⟩ := valid.shape
  obtain ⟨final, parsed, _, carried⟩ := @block_carried env db chain block height cache valid knows
    range inside coinbase rest shape
  obtain ⟨start, leaked, same, found, checked, kept, _, total⟩ := carried.charged
  cases same
  have pays : leaked.coinbaseTx = coinbase := kept
  have charged : leaked.totalAmount = feesOf (spentPrevouts env db block) rest := by
    simpa using total
  have fits : leaked.coinbaseTx.outputValues.sum < u64Bound := by
    rw [pays]
    exact range.outputs coinbase (by simp [shape])
  have payout := LeakedInscriptions.checkedLeaked_eq fits
  rw [pays, charged] at payout
  have fees : Parser.checkedFees env db height block (spentPrevouts env db block) cache =
      leaked.checkedLeaked.map (Prod.mk leaked) := by
    have head : block.txs.head? = some coinbase := by rw [shape]; rfl
    rw [Parser.checkedFees, head]
    simp only [Option.bind_eq_bind, Option.bind_some]
    rw [checked, Option.bind_some]
    cases leaked.checkedLeaked <;> rfl
  have whole : block.txs.head? = some coinbase := by rw [shape]; rfl
  rw [fees_rest valid shape, whole]
  simp only [Option.mem_some_iff, forall_eq']
  constructor
  · rintro ⟨⟨other, through, _⟩, _⟩
    by_contra short
    rw [fees, payout, if_neg short] at through
    cases through
  · intro claimed
    rw [if_pos claimed] at payout
    rw [payout, Option.map_some] at fees
    refine ⟨⟨leaked, fees, final, parsed, found⟩, ?_⟩
    intro other locations through location paid
    rw [fees] at through
    cases through
    obtain ⟨own, output, present, bound⟩ := LeakedInscriptions.getLeaked_inside paid
    rw [pays] at own present
    exact ⟨coinbase, whole, own, output, present, bound⟩

end Block

/-! Where tracked offsets go. -/

def Tracked (offsets : Table OutPoint (Finset Nat)) (location : Location) : Prop :=
  location.offset ∈ (offsets.get location.outpoint).getD ∅

def TrackedInside (utxo : Utxo) (offsets : Table OutPoint (Finset Nat)) : Prop :=
  ∀ location, Tracked offsets location →
    ∃ output, utxo.get location.outpoint = some output ∧ location.offset < output.value

instance (utxo : Utxo) (offsets : Table OutPoint (Finset Nat)) :
    Decidable (TrackedInside utxo offsets) :=
  decidable_of_iff (∀ outpoint ∈ offsets.keys, ∀ offset ∈ (offsets.get outpoint).getD ∅,
      (utxo.get outpoint).any fun output => offset < output.value)
    (by
      simp only [Option.any_eq_true, decide_eq_true_eq]
      constructor
      · intro inside location member
        refine inside location.outpoint ?_ location.offset member
        cases found : offsets.get location.outpoint with
        | none =>
            rw [Tracked, found] at member
            cases member
        | some _ => exact Table.mem_keys_iff.mpr ⟨_, found⟩
      · exact fun inside outpoint _ offset member => inside ⟨outpoint, offset⟩ member)

def payOut (prevouts : Table OutPoint TxPrevout) (block : Block) (place : Place) :
    Option Location :=
  block.txs.head?.bind fun coinbase => place.settle coinbase (feesOf prevouts block.txs.tail)

def followBlock (prevouts : Table OutPoint TxPrevout) (block : Block) (location : Location) :
    Option Location :=
  payOut prevouts block ((Place.output location).followTxs prevouts 0 block.txs.tail)

def offsetsAfter (db : DB) (parsed : Parser.Parsed) : Table OutPoint (Finset Nat) :=
  ((ProcessedData.inscriptionOffset parsed.offsetsToRemove parsed.offsetsToWrite).apply
    db).outpointToInscriptionOffsets

section Follow

variable {env : Env} {db : DB} {chain : Chain} {block : Block} {height : Nat} {cache : TokenCache}

theorem SpentInside.of_tracked (valid : ValidBlock env chain.utxo chain.txids block)
    (knows : KnowsUnspent env db.prevouts chain block)
    (tracked : TrackedInside chain.utxo db.outpointToInscriptionOffsets) :
    SpentInside env db block := by
  intro outpoint spends offset member
  obtain ⟨output, present, inside⟩ := tracked ⟨outpoint, offset⟩ member
  have older : outpoint.txid ∉ block.txids := fun own =>
    valid.txids_disjoint own (Chain.utxo_txid (Table.mem_keys_iff.mpr ⟨output, present⟩))
  have spent := spends
  rw [spentOutpoints_eq] at spent
  rcases valid.spent_origin (fun _ => Chain.utxo_txid) spent with ⟨other, same, spendable⟩ | own
  · obtain rfl : output = other := by simpa [present] using same
    have stored := (@spendable_known env db chain block valid knows [] (by simp) outpoint output
      present spendable spends).2
    rw [valueOf, stored]
    exact inside
  · exact absurd own older

theorem parseBlock_writes {prevouts : Table OutPoint TxPrevout} {final : ParseState}
    {leaked : LeakedInscriptions}
    (ran : block.txs.foldlM (Parser.parseTx env prevouts height block.header.timestamp)
      (Parser.blockStart db prevouts cache) = .ok final) (found : final.leaked = some leaked) :
    ∃ parsed, Parser.parseBlock env db height block prevouts cache = .ok parsed ∧
      ∀ location, Tracked parsed.offsetsToWrite location ↔
        Tracked final.offsets location ∨ location ∈ leaked.getLeakedInscriptions := by
  have result : ∃ parsed, Parser.parseBlock env db height block prevouts cache = .ok parsed ∧
      parsed.offsetsToWrite = .collect
        (final.offsets.keys ∪ leaked.getLeakedInscriptions.image Location.outpoint)
        fun outpoint => some ((final.offsets.get outpoint).getD ∅ ∪
          (leaked.getLeakedInscriptions.filter fun location => location.outpoint = outpoint).image
            Location.offset) := by
    unfold Parser.blockStart at ran
    rw [Parser.parseBlock, ran]
    dsimp only [Bind.bind, Except.bind]
    rw [found]
    exact ⟨_, rfl, rfl⟩
  obtain ⟨parsed, done, written⟩ := result
  refine ⟨parsed, done, ?_⟩
  intro location
  rw [Tracked, written, Table.get_collect]
  split
  · rw [Option.getD_some, Finset.mem_union, Finset.mem_image]
    refine or_congr_right ?_
    constructor
    · rintro ⟨other, member, same⟩
      obtain ⟨paid, also⟩ := Finset.mem_filter.mp member
      obtain ⟨outpoint, offset⟩ := location
      obtain ⟨_, _⟩ := other
      cases same
      cases also
      exact paid
    · exact fun paid => ⟨location, Finset.mem_filter.mpr ⟨paid, rfl⟩, rfl⟩
  · rename_i unknown
    rw [Finset.mem_union, not_or] at unknown
    constructor
    · intro member
      cases member
    · rintro (member | paid)
      · rw [Tracked, Table.get_eq_none_iff.mpr unknown.1] at member
        cases member
      · exact absurd (Finset.mem_image_of_mem _ paid) unknown.2

theorem getLeaked_settle {leaked : LeakedInscriptions} {fees : Nat}
    (fits : leaked.coinbaseTx.outputValues.sum < u64Bound) (total : leaked.totalAmount = fees)
    (claimed : fees ≤ leaked.coinbaseTx.outputValues.sum)
    (filed : leaked.Filed) (location : Location) :
    location ∈ leaked.getLeakedInscriptions ↔
      ∃ key ∈ leaked.inscriptions.keys,
        (Place.fee key).settle leaked.coinbaseTx fees = some location := by
  have reward : leaked.coinbaseReward = leaked.coinbaseTx.outputValues.sum - fees := by
    rw [LeakedInscriptions.coinbaseReward, u64Sum_eq fits, total, u64Sub_eq fits claimed]
  simp only [LeakedInscriptions.getLeakedInscriptions, Finset.mem_biUnion, Option.mem_toFinset,
    Option.mem_def]
  refine exists_congr fun key => and_congr_right fun member => ?_
  have small := filed key member
  have offset : u64Add key leaked.coinbaseReward =
      leaked.coinbaseTx.outputValues.sum - fees + key := by
    rw [reward, u64Add_eq (by omega), Nat.add_comm]
  rw [LeakedInscriptions.findInscriptionVout, offset, InscriptionSearcher.locate_eq, Place.settle,
    Option.map_map]
  simp [Function.comp_def]

theorem offsetsAfter_iff (valid : ValidBlock env chain.utxo chain.txids block)
    (tracked : TrackedInside chain.utxo db.outpointToInscriptionOffsets)
    (known : ∀ outpoint ∈ spentOutpoints block,
      ((spentPrevouts env db block).get outpoint).isSome)
    {parsed : Parser.Parsed}
    (done : Parser.parseBlock env db height block (spentPrevouts env db block) cache = .ok parsed)
    (location : Location) :
    Tracked (offsetsAfter db parsed) location ↔
      Tracked parsed.offsetsToWrite location ∨
      (Tracked db.outpointToInscriptionOffsets location ∧
        location.outpoint ∉ spentOutpoints block) := by
  have spec := parseBlock_spec done
  have loaded : ∀ outpoint, outpoint ∈ parsed.offsetsToRemove.keys ↔
      outpoint ∈ spentOutpoints block ∧
        (db.outpointToInscriptionOffsets.get outpoint).isSome := by
    intro outpoint
    rw [spec.offsetsToRemove, Table.keys_restrict, Finset.mem_inter, Table.mem_keys_iff,
      Table.mem_keys_iff, ← Option.isSome_iff_exists, ← Option.isSome_iff_exists]
    refine ⟨fun ⟨found, tracked⟩ => ⟨?_, tracked⟩,
      fun ⟨spends, tracked⟩ => ⟨known outpoint spends, tracked⟩⟩
    rw [spentPrevouts, Table.get_collect] at found
    split at found
    · rename_i listed
      exact List.mem_toFinset.mp listed
    · cases found
  have after : (offsetsAfter db parsed).get location.outpoint =
      (parsed.offsetsToWrite.get location.outpoint).or
        (if location.outpoint ∈ parsed.offsetsToRemove.keys then none
          else db.outpointToInscriptionOffsets.get location.outpoint) := by
    simp only [offsetsAfter, ProcessedData.apply, ProcessedData.writes, List.foldl_cons,
      List.foldl_nil, Table.get_extend, Table.get_removeBatch]
  have kept : Tracked db.outpointToInscriptionOffsets location →
      location.outpoint ∉ spentOutpoints block →
      parsed.offsetsToWrite.get location.outpoint = none := by
    intro member unspent
    rw [Table.get_eq_none_iff]
    intro listed
    rcases spec.offsetsToWrite _ listed with own | removed
    · obtain ⟨output, present, _⟩ := tracked location member
      exact valid.txids_disjoint own
        (Chain.utxo_txid (Table.mem_keys_iff.mpr ⟨output, present⟩))
    · exact unspent ((loaded _).mp removed).1
  constructor
  · intro member
    rw [Tracked, after] at member
    cases written : parsed.offsetsToWrite.get location.outpoint with
    | some offsets =>
        rw [written, Option.some_or] at member
        refine Or.inl ?_
        rw [Tracked, written]
        exact member
    | none =>
        rw [written, Option.none_or] at member
        split at member
        · cases member
        · rename_i stays
          refine Or.inr ⟨member, fun spends => stays ((loaded _).mpr ⟨spends, ?_⟩)⟩
          cases found : db.outpointToInscriptionOffsets.get location.outpoint with
          | none =>
              rw [found] at member
              cases member
          | some offsets => rfl
  · rintro (written | ⟨member, unspent⟩)
    · rw [Tracked, after]
      cases found : parsed.offsetsToWrite.get location.outpoint with
      | some offsets =>
          rw [Tracked, found] at written
          exact written
      | none =>
          rw [Tracked, found] at written
          cases written
    · have stays : location.outpoint ∉ parsed.offsetsToRemove.keys :=
        fun removed => unspent ((loaded _).mp removed).1
      rw [Tracked, after, kept member unspent, Option.none_or, if_neg stays]
      exact member

theorem spent_known (valid : ValidBlock env chain.utxo chain.txids block)
    (knows : KnowsUnspent env db.prevouts chain block)
    (range : InRange (spentPrevouts env db block) block) {outpoint : OutPoint}
    (spends : outpoint ∈ spentOutpoints block) :
    ((spentPrevouts env db block).get outpoint).isSome := by
  obtain ⟨coinbase, rest, shape, first, _⟩ := valid.shape
  obtain ⟨tx, member, ordinary, input, listed, rfl⟩ := spent_listed.mp spends
  rw [shape, List.mem_cons] at member
  rcases member with rfl | later
  · rw [first] at ordinary
    cases ordinary
  · exact (payable_block valid knows range shape later).known input listed

theorem tracked_after (valid : ValidBlock env chain.utxo chain.txids block)
    (knows : KnowsUnspent env db.prevouts chain block)
    (range : InRange (spentPrevouts env db block) block)
    (claimed : ∀ coinbase ∈ block.txs.head?,
      feesOf (spentPrevouts env db block) block.txs.tail ≤ coinbase.outputValues.sum)
    (tracked : TrackedInside chain.utxo db.outpointToInscriptionOffsets) :
    ∃ parsed final,
      Parser.parseBlock env db height block (spentPrevouts env db block) cache = .ok parsed ∧
      block.txs.foldlM (Parser.parseTx env (spentPrevouts env db block) height
        block.header.timestamp) (Parser.blockStart db (spentPrevouts env db block) cache) =
          .ok final ∧
      Sized (worthOf chain block) final.offsets ∧
      (∀ place, Tracks final place ↔
        (∃ location, Tracked db.outpointToInscriptionOffsets location ∧
          location.outpoint ∈ spentOutpoints block ∧
          (Place.output location).followTxs (spentPrevouts env db block) 0 block.txs.tail =
            place) ∨
        place ∈ bornInBlock env db height block (spentPrevouts env db block) cache) ∧
      ∀ target, Tracked (offsetsAfter db parsed) target ↔
        (∃ place, Tracks final place ∧
          payOut (spentPrevouts env db block) block place = some target) ∨
        (Tracked db.outpointToInscriptionOffsets target ∧
          target.outpoint ∉ spentOutpoints block) := by
  obtain ⟨coinbase, rest, shape, _, _⟩ := valid.shape
  obtain ⟨final, ran, sized, carried⟩ := @block_carried env db chain block height cache valid knows
    range (.of_tracked valid knows tracked) coinbase rest shape
  obtain ⟨start, leaked, same, found, _, kept, filed, total⟩ := carried.charged
  cases same
  obtain ⟨parsed, done, written⟩ := @parseBlock_writes env db block height cache _ final leaked ran
    found
  have pays : leaked.coinbaseTx = coinbase := kept
  rw [shape] at claimed
  have covered := claimed coinbase rfl
  have fits : leaked.coinbaseTx.outputValues.sum < u64Bound := by
    rw [pays]
    exact range.outputs coinbase (by simp [shape])
  refine ⟨parsed, final, done, ran, sized, ?_, ?_⟩
  · intro place
    rw [carried.tracks, shape]
    refine or_congr_left ⟨?_, ?_⟩
    · rintro ⟨origin, member, rfl⟩
      cases origin with
      | fee offset =>
          obtain ⟨leaked, same, impossible⟩ := member
          cases same
          cases impossible
      | output location =>
          unfold Tracks Parser.blockStart at member
          dsimp only at member
          rw [Table.get_restrict] at member
          split at member
          · rename_i loaded
            refine ⟨location, member, ?_, rfl⟩
            obtain ⟨prevout, present⟩ := Table.mem_keys_iff.mp loaded
            rw [spentPrevouts, Table.get_collect] at present
            split at present
            · rename_i listed
              exact List.mem_toFinset.mp listed
            · cases present
          · cases member
    · rintro ⟨location, member, spends, rfl⟩
      refine ⟨.output location, ?_, rfl⟩
      have loaded := Table.mem_keys_iff.mpr
        (Option.isSome_iff_exists.mp (spent_known valid knows range spends))
      unfold Tracks Parser.blockStart
      dsimp only
      rw [Table.get_restrict, if_pos loaded]
      exact member
  · intro target
    have settled := getLeaked_settle fits (by simpa using total) (by rw [pays]; exact covered)
      (filed fun _ impossible => by cases impossible) target
    rw [offsetsAfter_iff valid tracked (fun _ => spent_known valid knows range) done, written,
      settled, pays]
    refine or_congr_left ?_
    unfold payOut
    rw [shape]
    constructor
    · rintro (member | ⟨key, member, paid⟩)
      · exact ⟨.output target, member, rfl⟩
      · exact ⟨.fee key, ⟨leaked, found, member⟩, paid⟩
    · rintro ⟨place, member, paid⟩
      cases place with
      | output location =>
          cases paid
          exact Or.inl member
      | fee key =>
          obtain ⟨also, same, listed⟩ := member
          obtain rfl : leaked = also := by simpa [found] using same
          exact Or.inr ⟨key, listed, paid⟩

theorem followed_within (valid : ValidBlock env chain.utxo chain.txids block)
    (knows : KnowsUnspent env db.prevouts chain block)
    (range : InRange (spentPrevouts env db block) block) {coinbase : Tx} {rest : List Tx}
    (shape : block.txs = coinbase :: rest)
    (tracked : TrackedInside chain.utxo db.outpointToInscriptionOffsets) {location : Location}
    (member : Tracked db.outpointToInscriptionOffsets location) :
    ((Place.output location).followTxs (spentPrevouts env db block) 0 block.txs.tail).Within
      (worthOf chain block) (feesOf (spentPrevouts env db block) block.txs.tail) := by
  obtain ⟨output, present, inside⟩ := tracked location member
  have older : location.outpoint.txid ∉ block.txids := fun own =>
    valid.txids_disjoint own (Chain.utxo_txid (Table.mem_keys_iff.mpr ⟨output, present⟩))
  have within : (Place.output location).Within (worthOf chain block) 0 := by
    rw [Place.Within, worthOf, known_older older, present]
    exact inside
  rw [shape]
  have followed := followTxs_within
    (fun _ listed => payable_block valid knows range shape listed) within
  rwa [Nat.zero_add] at followed

theorem payOut_within {prevouts : Table OutPoint TxPrevout} {coinbase : Tx} {rest : List Tx}
    (shape : block.txs = coinbase :: rest)
    (claimed : ∀ coinbase ∈ block.txs.head?,
      feesOf prevouts block.txs.tail ≤ coinbase.outputValues.sum)
    {worth : OutPoint → Nat} {place : Place}
    (within : place.Within worth (feesOf prevouts block.txs.tail)) :
    ∃ target, payOut prevouts block place = some target := by
  rw [shape] at claimed within
  have covered := claimed coinbase rfl
  rw [payOut, shape]
  cases place with
  | output location => exact ⟨location, rfl⟩
  | fee offset =>
      have below : offset < feesOf prevouts rest := within
      have total : feesOf prevouts rest ≤ coinbase.outputValues.sum := covered
      have found : (Segments.find coinbase.outputValues
          (coinbase.outputValues.sum - feesOf prevouts rest + offset)).isSome :=
        Segments.find_isSome.mpr (by omega)
      obtain ⟨place, same⟩ := Option.isSome_iff_exists.mp found
      refine ⟨⟨⟨coinbase.hash, place.1⟩, place.2⟩, ?_⟩
      change Place.settle coinbase (feesOf prevouts rest) (.fee offset) = _
      rw [Place.settle, same]
      rfl

theorem followBlock_unspent {prevouts : Table OutPoint TxPrevout}
    (valid : ValidBlock env chain.utxo chain.txids block) {location : Location}
    (unspent : location.outpoint ∉ spentOutpoints block) :
    followBlock prevouts block location = some location := by
  obtain ⟨coinbase, rest, shape, _, others⟩ := valid.shape
  have stays : (Place.output location).followTxs prevouts 0 block.txs.tail = .output location := by
    refine followTxs_unspent ?_
    intro tx listed input member same
    rw [shape] at listed
    obtain ⟨_, _, _, pays⟩ := others.at_mem listed
    exact unspent (spent_listed.mpr
      ⟨tx, by rw [shape]; exact List.mem_cons_of_mem _ listed, pays.ordinary, input, member, same⟩)
  rw [followBlock, stays, payOut, shape]
  rfl

theorem final_unspent (valid : ValidBlock env chain.utxo chain.txids block)
    {prevouts : Table OutPoint TxPrevout} {final : ParseState}
    (ran : block.txs.foldlM (Parser.parseTx env prevouts height block.header.timestamp)
      (Parser.blockStart db prevouts cache) = .ok final) {outpoint : OutPoint}
    (spends : outpoint ∈ block.txs.flatMap Tx.spent) : final.offsets.get outpoint = none := by
  obtain ⟨coinbase, rest, shape, first, others⟩ := valid.shape
  have later := (valid.spent_ordinary (fun _ => Chain.utxo_txid) shape spends).1
  rw [shape, List.foldlM_cons, Parser.parseTx, if_pos first] at ran
  exact parsed_spent_gone others (valid.newTo (fun _ => Chain.utxo_txid) shape) ran later

/-- A block loses and misplaces no tracked inscription: each goes where its satoshi goes, and
only inscriptions of the block are new. All are tracked inside unspent outputs again. -/
theorem block_followed (valid : ValidBlock env chain.utxo chain.txids block)
    (knows : KnowsUnspent env db.prevouts chain block)
    (range : InRange (spentPrevouts env db block) block)
    (claimed : ∀ coinbase ∈ block.txs.head?,
      feesOf (spentPrevouts env db block) block.txs.tail ≤ coinbase.outputValues.sum)
    (tracked : TrackedInside chain.utxo db.outpointToInscriptionOffsets) :
    ∃ parsed,
      Parser.parseBlock env db height block (spentPrevouts env db block) cache = .ok parsed ∧
      (∀ location, Tracked db.outpointToInscriptionOffsets location →
        ∃ target, followBlock (spentPrevouts env db block) block location = some target ∧
          Tracked (offsetsAfter db parsed) target ∧
          (location.outpoint ∉ spentOutpoints block → target = location)) ∧
      (∀ target, Tracked (offsetsAfter db parsed) target ↔
        (∃ location, Tracked db.outpointToInscriptionOffsets location ∧
          followBlock (spentPrevouts env db block) block location = some target) ∨
        ∃ place ∈ bornInBlock env db height block (spentPrevouts env db block) cache,
          payOut (spentPrevouts env db block) block place = some target) ∧
      TrackedInside (chain.utxo.applyBlock block) (offsetsAfter db parsed) := by
  obtain ⟨coinbase, rest, shape, first, others⟩ := valid.shape
  obtain ⟨parsed, final, done, ran, sized, tracks, after⟩ := @tracked_after env db chain block height
    cache valid knows range claimed tracked
  refine ⟨parsed, done, ?_, ?_, ?_⟩
  · intro location member
    by_cases spends : location.outpoint ∈ spentOutpoints block
    · have within := followed_within valid knows range shape tracked member
      obtain ⟨target, paid⟩ := payOut_within shape claimed within
      have last := (tracks _).mpr (Or.inl ⟨location, member, spends, rfl⟩)
      exact ⟨target, paid, (after target).mpr (Or.inl ⟨_, last, paid⟩),
        fun stays => absurd spends stays⟩
    · exact ⟨location, followBlock_unspent valid spends,
        (after location).mpr (Or.inr ⟨member, spends⟩),
        fun _ => rfl⟩
  · intro target
    rw [after]
    constructor
    · rintro (⟨place, last, paid⟩ | ⟨member, unspent⟩)
      · rcases (tracks place).mp last with ⟨location, member, _, rfl⟩ | born
        · exact Or.inl ⟨location, member, paid⟩
        · exact Or.inr ⟨place, born, paid⟩
      · exact Or.inl ⟨target, member, followBlock_unspent valid unspent⟩
    · rintro (⟨location, member, followed⟩ | ⟨place, born, paid⟩)
      · by_cases spends : location.outpoint ∈ spentOutpoints block
        · exact Or.inl ⟨_, (tracks _).mpr (Or.inl ⟨location, member, spends, rfl⟩), followed⟩
        · rw [followBlock_unspent valid spends, Option.some.injEq] at followed
          subst followed
          exact Or.inr ⟨member, spends⟩
      · exact Or.inl ⟨place, (tracks place).mpr (Or.inr born), paid⟩
  · intro target member
    rcases (after target).mp member with ⟨place, last, paid⟩ | ⟨stays, unspent⟩
    · unfold payOut at paid
      rw [shape] at paid
      cases place with
      | output location =>
          cases paid
          have inside : target.offset < worthOf chain block target.outpoint :=
            sized target.outpoint target.offset last
          unfold worthOf at inside
          cases known : (knownOutputs chain block).get target.outpoint with
          | none =>
              rw [known] at inside
              exact absurd inside (Nat.not_lt_zero _)
          | some output =>
              rw [known] at inside
              refine ⟨output, known_unspent valid ?_ known, inside⟩
              intro spends
              rw [Tracks, final_unspent valid ran spends] at last
              cases last
      | fee key =>
          obtain ⟨⟨vout, offset⟩, found, rfl⟩ := Option.map_eq_some_iff.mp paid
          obtain ⟨-, value, present, inside⟩ := Segments.find_iff.mp found
          rw [Tx.outputValues, List.getElem?_map, Option.map_eq_some_iff] at present
          obtain ⟨output, present, rfl⟩ := present
          refine ⟨output, valid.get_created (fun _ => Chain.utxo_txid) (by simp [shape]) present ?_,
            inside⟩
          exact fun spends =>
            (valid.spent_ordinary (fun _ => Chain.utxo_txid) shape spends).2 rfl
    · obtain ⟨output, present, inside⟩ := tracked target stays
      have older : target.outpoint.txid ∉ block.txids := fun own =>
        valid.txids_disjoint own (Chain.utxo_txid (Table.mem_keys_iff.mpr ⟨output, present⟩))
      rw [spentOutpoints_eq] at unspent
      refine ⟨output, ?_, inside⟩
      rw [valid.get_applyBlock older, if_neg unspent, present]

end Follow

namespace Sample

def feeBlock (claimed : Nat) : Block :=
  block 103 [coinbase 4 [pay sender claimed], {
    hash := 5
    inputs := [spend 3 0 []]
    outputs := [pay recipient 0] }]

def paidOutputs (txid : Txid) : List EvaluatedTxOut :=
  if txid = 4 then [pay sender 100] else if txid = 5 then [pay recipient 0] else [pay sender 50]

def Asked (process : Process) (block : Block) : Prop :=
  ValidBlock env process.chain.utxo process.chain.txids block ∧
    InRange (spentPrevouts env process.db block) block ∧ SpentInside env process.db block

instance (process : Process) (block : Block) : Decidable (Asked process block) :=
  inferInstanceAs (Decidable (_ ∧ _ ∧ _))

def fees (process : Process) (block : Block) : Nat :=
  feesOf (spentPrevouts env process.db block) (block.txs.filter fun tx => !tx.isCoinbase)

end Sample

theorem wojak_fees : ∃ process, Reachable Sample.env (ForgetsNothing Sample.env) process ∧
    FeesSafe Sample.env process.db 3 (Sample.feeBlock 50)
      (spentPrevouts Sample.env process.db (Sample.feeBlock 50)) {} ∧
    ¬ FeesSafe Sample.env process.db 3 (Sample.feeBlock 49)
      (spentPrevouts Sample.env process.db (Sample.feeBlock 49)) {} := by
  obtain ⟨process, reached, ⟨valid, range, inside⟩, ⟨nextValid, nextRange, nextInside⟩, full, short⟩ :
      ∃ process, Reachable Sample.env (ForgetsNothing Sample.env) process ∧
        Sample.Asked process (Sample.feeBlock 50) ∧ Sample.Asked process (Sample.feeBlock 49) ∧
        Sample.fees process (Sample.feeBlock 50) = 50 ∧
        Sample.fees process (Sample.feeBlock 49) = 50 :=
    replay_any Sample.lockWojak (by decide +kernel)
  have holds := (reachable_unspent reached).1
  refine ⟨process, reached, (feesSafe_iff valid (holds.knows valid) range inside).mpr ?_, ?_⟩
  · intro coinbase first
    cases first
    exact Nat.le_of_eq full
  · intro safe
    have claimed := (feesSafe_iff nextValid (holds.knows nextValid) nextRange nextInside).mp safe _ rfl
    have total : (Sample.coinbase 4 [Sample.pay Sample.sender 49]).outputValues.sum = 49 := rfl
    change Sample.fees process (Sample.feeBlock 49) ≤ _ at claimed
    rw [short, total] at claimed
    omega

/-- A miner may claim less than the fees: the reward then underflows. -/
theorem unclaimed_underflow : ¬ ∀ (env : Env) (db : DB) (chain : Chain) (block : Block)
    (height : Nat) (cache : TokenCache), ValidBlock env chain.utxo chain.txids block →
    HoldsUnspent env db.prevouts chain → InRange (spentPrevouts env db block) block →
    SpentInside env db block →
    FeesSafe env db height block (spentPrevouts env db block) cache := by
  intro always
  obtain ⟨process, reached, ⟨valid, range, inside⟩, short⟩ : ∃ process,
      Reachable Sample.env (ForgetsNothing Sample.env) process ∧
      Sample.Asked process (Sample.feeBlock 0) ∧
      (Parser.checkedFees Sample.env process.db 3 (Sample.feeBlock 0)
        (spentPrevouts Sample.env process.db (Sample.feeBlock 0)) {}).isNone = true :=
    replay_any Sample.lockWojak (by decide +kernel)
  obtain ⟨leaked, through, _⟩ := (always Sample.env process.db process.chain (Sample.feeBlock 0) 3
    {} valid (reachable_unspent reached).1 range inside).checked
  rw [through] at short
  cases short

theorem wojak_followed : ∃ process,
    Reachable Sample.env (Determined Sample.env Sample.paidOutputs) process ∧
      ¬HoldsUnspent Sample.env process.db.prevouts process.chain ∧
    ∃ parsed, Parser.parseBlock Sample.env process.db 3 (Sample.feeBlock 100)
        (spentPrevouts Sample.env process.db (Sample.feeBlock 100)) {} = .ok parsed ∧
      Tracked process.db.outpointToInscriptionOffsets ⟨⟨3, 0⟩, 0⟩ ∧
      Tracked (offsetsAfter process.db parsed) ⟨⟨4, 0⟩, 50⟩ := by
  obtain ⟨process, reached, ⟨valid, range, _⟩, left, fees, tracked, member, followed⟩ : ∃ process,
      Reachable Sample.env (Determined Sample.env Sample.paidOutputs) process ∧
      Sample.Asked process (Sample.feeBlock 100) ∧
      process.db.prevouts.get ⟨2, 0⟩ ≠
        (process.chain.utxo.get ⟨2, 0⟩).bind (storedOutput Sample.env) ∧
      feesOf (spentPrevouts Sample.env process.db (Sample.feeBlock 100))
        (Sample.feeBlock 100).txs.tail = 50 ∧
      TrackedInside process.chain.utxo process.db.outpointToInscriptionOffsets ∧
      0 ∈ (process.db.outpointToInscriptionOffsets.get ⟨3, 0⟩).getD ∅ ∧
      followBlock (spentPrevouts Sample.env process.db (Sample.feeBlock 100))
        (Sample.feeBlock 100) ⟨⟨3, 0⟩, 0⟩ = some ⟨⟨4, 0⟩, 50⟩ :=
    replay_any (Sample.lockWojak ++ [.restore 1, .block 2 { Sample.inscribeWojak with
      txs := Sample.inscribeWojak.txs.modify 0 fun coinbase => { coinbase with hash := 6 } } true])
      (by decide +kernel)
  have claimed : ∀ coinbase ∈ (Sample.feeBlock 100).txs.head?,
      feesOf (spentPrevouts Sample.env process.db (Sample.feeBlock 100))
        (Sample.feeBlock 100).txs.tail ≤ coinbase.outputValues.sum := by
    intro coinbase first
    cases first
    rw [fees]
    decide
  have knows := reachable_knows reached valid (by decide +kernel)
  obtain ⟨parsed, done, _, after, _⟩ := @block_followed Sample.env process.db process.chain
    (Sample.feeBlock 100) 3 {} valid knows range claimed tracked
  exact ⟨process, reached, fun holds => left (holds _), parsed, done, member,
    (after _).mpr (Or.inl ⟨⟨⟨3, 0⟩, 0⟩, member, followed⟩)⟩

end WjkIndexer
