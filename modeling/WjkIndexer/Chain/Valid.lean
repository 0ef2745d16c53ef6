import WjkIndexer.Env

/-!
The consensus rules that the indexer relies on: transactions spend existing outputs once,
and transaction ids do not repeat.
-/

namespace WjkIndexer

open FiniteTable

/-- The unspent outputs of a chain. -/
abbrev Utxo := Table OutPoint EvaluatedTxOut

def Tx.spent (tx : Tx) : List OutPoint :=
  if tx.isCoinbase then [] else tx.inputs.map TxInput.outpoint

def Utxo.applyTx (utxo : Utxo) (tx : Tx) : Utxo :=
  (utxo.removeBatch tx.spent.toFinset).extendList tx.created

def Utxo.applyTxs (utxo : Utxo) (txs : List Tx) : Utxo := txs.foldl Utxo.applyTx utxo

/-- A transaction that spends `available` outputs, each once, and no more than they hold. -/
structure ValidTx (env : Env) (available : Utxo) (tx : Tx) : Prop where
  ordinary : tx.isCoinbase = false
  spends : tx.inputs ≠ []
  once : (tx.inputs.map TxInput.outpoint).Nodup
  unspent : ∀ input ∈ tx.inputs, ∃ output, available.get input.outpoint = some output ∧
    env.isProvablyUnspendable output.scriptPubkey = false
  funded : (tx.outputs.map EvaluatedTxOut.value).sum ≤
    (tx.inputs.map fun input =>
      ((available.get input.outpoint).map EvaluatedTxOut.value).getD 0).sum

def ValidTxs (env : Env) : Utxo → List Tx → Prop
  | _, [] => True
  | available, tx :: rest => ValidTx env available tx ∧ ValidTxs env (available.applyTx tx) rest

/-- A block on top of a chain with the unspent outputs `utxo` and the transaction ids `used`.
The outputs of its coinbase cannot be spent in it. -/
structure ValidBlock (env : Env) (utxo : Utxo) (used : Finset Txid) (block : Block) : Prop where
  shape : ∃ coinbase rest, block.txs = coinbase :: rest ∧ coinbase.isCoinbase = true ∧
    ValidTxs env utxo rest
  distinct : (block.txs.map Tx.hash).Nodup
  fresh : ∀ tx ∈ block.txs, tx.hash ∉ used

/-! The rules can be checked on given transactions. -/

instance (env : Env) (available : Utxo) (tx : Tx) : Decidable (ValidTx env available tx) :=
  decidable_of_iff
    (tx.isCoinbase = false ∧ tx.inputs ≠ [] ∧ (tx.inputs.map TxInput.outpoint).Nodup ∧
      (∀ input ∈ tx.inputs, (available.get input.outpoint).any fun output =>
        !env.isProvablyUnspendable output.scriptPubkey) ∧
      (tx.outputs.map EvaluatedTxOut.value).sum ≤
        (tx.inputs.map fun input =>
          ((available.get input.outpoint).map EvaluatedTxOut.value).getD 0).sum)
    (by
      simp only [Option.any_eq_true, Bool.not_eq_true']
      exact ⟨fun ⟨ordinary, spends, once, unspent, funded⟩ =>
          ⟨ordinary, spends, once, unspent, funded⟩,
        fun valid => ⟨valid.ordinary, valid.spends, valid.once, valid.unspent, valid.funded⟩⟩)

instance ValidTxs.decide (env : Env) :
    (available : Utxo) → (txs : List Tx) → Decidable (ValidTxs env available txs)
  | _, [] => isTrue trivial
  | available, tx :: rest =>
      have := ValidTxs.decide env (available.applyTx tx) rest
      inferInstanceAs (Decidable (ValidTx env available tx ∧ ValidTxs env _ rest))

instance (env : Env) (utxo : Utxo) (used : Finset Txid) (block : Block) :
    Decidable (ValidBlock env utxo used block) :=
  decidable_of_iff
    ((match block.txs with
      | [] => false
      | coinbase :: rest => coinbase.isCoinbase && decide (ValidTxs env utxo rest)) = true ∧
      (block.txs.map Tx.hash).Nodup ∧ ∀ tx ∈ block.txs, tx.hash ∉ used)
    (by
      constructor
      · rintro ⟨shape, distinct, fresh⟩
        refine ⟨?_, distinct, fresh⟩
        split at shape
        · cases shape
        · rename_i coinbase rest listed
          rw [Bool.and_eq_true, decide_eq_true_eq] at shape
          exact ⟨coinbase, rest, listed, shape⟩
      · rintro ⟨⟨coinbase, rest, listed, shape⟩, distinct, fresh⟩
        refine ⟨?_, distinct, fresh⟩
        rw [listed]
        exact Bool.and_eq_true_iff.mpr ⟨shape.1, decide_eq_true shape.2⟩)

def Block.txids (block : Block) : Finset Txid := (block.txs.map Tx.hash).toFinset

def Utxo.applyBlock (utxo : Utxo) (block : Block) : Utxo :=
  match block.txs with
  | [] => utxo
  | coinbase :: rest => (utxo.applyTxs rest).extendList coinbase.created

abbrev Chain := List (Nat × Block)

namespace Chain

def utxo (chain : Chain) : Utxo :=
  chain.foldr (fun entry utxo => utxo.applyBlock entry.2) ∅

def txids (chain : Chain) : Finset Txid :=
  chain.foldr (fun entry used => used ∪ entry.2.txids) ∅

@[simp] theorem utxo_nil : utxo [] = ∅ := rfl

@[simp] theorem utxo_cons (entry : Nat × Block) (chain : Chain) :
    utxo (entry :: chain) = (utxo chain).applyBlock entry.2 := rfl

@[simp] theorem txids_nil : txids [] = ∅ := rfl

@[simp] theorem txids_cons (entry : Nat × Block) (chain : Chain) :
    txids (entry :: chain) = txids chain ∪ entry.2.txids := rfl

def Follows (chain : Chain) (height : Nat) : Prop :=
  ∀ last ∈ chain.head?, height = last.1 + 1

instance (chain : Chain) (height : Nat) : Decidable (chain.Follows height) :=
  inferInstanceAs (Decidable (∀ last ∈ chain.head?, height = last.1 + 1))

def Linked (chain : Chain) : Prop :=
  List.IsChain (fun upper lower : Nat × Block => upper.1 = lower.1 + 1) chain

theorem Linked.height {chain : Chain} (linked : chain.Linked) {top entry : Nat × Block}
    (head : chain.head? = some top) {place : Nat} (found : chain[place]? = some entry) :
    entry.1 + place = top.1 := by
  induction chain generalizing top place with
  | nil => cases head
  | cons first rest ih =>
      cases head
      cases place with
      | zero =>
          cases found
          rfl
      | succ place =>
          rw [List.getElem?_cons_succ] at found
          cases rest with
          | nil => cases found
          | cons second more =>
              obtain ⟨order, deeper⟩ := List.isChain_cons_cons.mp linked
              have below := ih deeper rfl found
              omega

theorem Linked.cons {chain : Chain} (linked : chain.Linked) {height : Nat}
    (follows : chain.Follows height) (block : Block) : Linked ((height, block) :: chain) := by
  cases chain with
  | nil => exact List.isChain_singleton _
  | cons top rest => exact List.isChain_cons_cons.mpr ⟨follows top rfl, linked⟩

end Chain

theorem created_txid {tx : Tx} {key : OutPoint} (created : key ∈ tx.created.map Prod.fst) :
    key.txid = tx.hash := by
  simp only [Tx.created, List.map_map, List.mem_map] at created
  obtain ⟨_, _, rfl⟩ := created
  rfl

theorem mem_txids {block : Block} {tx : Tx} (listed : tx ∈ block.txs) :
    tx.hash ∈ block.txids := by
  simp only [Block.txids, List.mem_toFinset, List.mem_map]
  exact ⟨tx, listed, rfl⟩

theorem ValidBlock.txids_disjoint {env : Env} {utxo : Utxo} {used : Finset Txid} {block : Block}
    (valid : ValidBlock env utxo used block) {txid : Txid} (own : txid ∈ block.txids) :
    txid ∉ used := by
  simp only [Block.txids, List.mem_toFinset, List.mem_map] at own
  obtain ⟨tx, listed, rfl⟩ := own
  exact valid.fresh tx listed

theorem Utxo.applyTxs_txid {utxo : Utxo} {txs : List Tx} {key : OutPoint}
    (member : key ∈ (utxo.applyTxs txs).keys) :
    key ∈ utxo.keys ∨ ∃ tx ∈ txs, key.txid = tx.hash := by
  induction txs generalizing utxo with
  | nil => exact Or.inl member
  | cons tx rest ih =>
      rcases @ih (utxo.applyTx tx) member with old | ⟨other, listed, made⟩
      · rcases Table.mem_keys_extendList old with kept | created
        · exact Or.inl (Table.mem_keys_removeBatch kept)
        · exact Or.inr ⟨tx, List.mem_cons_self, created_txid created⟩
      · exact Or.inr ⟨other, List.mem_cons_of_mem _ listed, made⟩

theorem Chain.utxo_txid {chain : Chain} {key : OutPoint} (member : key ∈ chain.utxo.keys) :
    key.txid ∈ chain.txids := by
  induction chain with
  | nil => cases member
  | cons entry rest ih =>
      rw [Chain.utxo_cons, Utxo.applyBlock] at member
      rw [Chain.txids_cons, Finset.mem_union]
      split at member
      · exact Or.inl (ih member)
      · rename_i coinbase others shape
        rcases Table.mem_keys_extendList member with spent | created
        · rcases Utxo.applyTxs_txid spent with old | ⟨tx, listed, made⟩
          · exact Or.inl (ih old)
          · rw [made]
            exact Or.inr (mem_txids (by simp [shape, listed]))
        · rw [created_txid created]
          exact Or.inr (mem_txids (by simp [shape]))

end WjkIndexer
