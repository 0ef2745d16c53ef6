import WjkIndexer.Chain.Valid

/-!
Spending in valid blocks: an output is spent once, after it was created, and is gone from
then on.
-/

namespace WjkIndexer

open FiniteTable

variable {env : Env} {utxo : Utxo} {tx : Tx} {txs : List Tx} {outpoint : OutPoint}

theorem created_of_ne (different : outpoint.txid ≠ tx.hash) :
    outpoint ∉ tx.created.map Prod.fst :=
  fun created => different (created_txid created)

theorem mem_created {vout : Nat} {output : EvaluatedTxOut} :
    (⟨tx.hash, vout⟩, output) ∈ tx.created ↔ tx.outputs[vout]? = some output := by
  simp only [Tx.created, List.mem_map, Prod.mk.injEq, Prod.exists, OutPoint.mk.injEq, true_and,
    List.mem_zipIdx_iff_getElem?]
  constructor
  · rintro ⟨_, _, present, rfl, rfl⟩
    exact present
  · intro present
    exact ⟨output, vout, present, rfl, rfl⟩

theorem created_iff {key : OutPoint × EvaluatedTxOut} :
    key ∈ tx.created ↔ key.1.txid = tx.hash ∧ tx.outputs[key.1.vout]? = some key.2 := by
  obtain ⟨⟨txid, vout⟩, output⟩ := key
  constructor
  · intro made
    have own : txid = tx.hash := created_txid (List.mem_map.mpr ⟨_, made, rfl⟩)
    subst own
    exact ⟨rfl, mem_created.mp made⟩
  · rintro ⟨rfl, present⟩
    exact mem_created.mpr present

theorem get_extend_created (utxo : Utxo) {vout : Nat} {output : EvaluatedTxOut}
    (present : tx.outputs[vout]? = some output) :
    (utxo.extendList tx.created).get ⟨tx.hash, vout⟩ = some output := by
  refine Table.get_extendList_unique (mem_created.mpr present) ?_ _
  intro other made
  have same := mem_created.mp made
  rw [present] at same
  exact (Option.some.inj same).symm

theorem get_applyTx (utxo : Utxo) (tx : Tx) {outpoint : OutPoint}
    (different : outpoint.txid ≠ tx.hash) :
    (utxo.applyTx tx).get outpoint =
      if outpoint ∈ tx.spent then none else utxo.get outpoint := by
  rw [Utxo.applyTx, Table.get_extendList_of_notMem (created_of_ne different),
    Table.get_removeBatch]
  simp only [List.mem_toFinset]

theorem get_applyTxs (utxo : Utxo) (txs : List Tx) {outpoint : OutPoint}
    (older : outpoint.txid ∉ txs.map Tx.hash) :
    (utxo.applyTxs txs).get outpoint =
      if outpoint ∈ txs.flatMap Tx.spent then none else utxo.get outpoint := by
  induction txs generalizing utxo with
  | nil => simp [Utxo.applyTxs]
  | cons tx rest ih =>
      simp only [List.map_cons, List.mem_cons, not_or] at older
      have first := get_applyTx utxo tx older.1
      have others := ih (utxo.applyTx tx) older.2
      rw [Utxo.applyTxs, List.foldl_cons, ← Utxo.applyTxs, others, first, List.flatMap_cons]
      by_cases now : outpoint ∈ tx.spent
      · simp [now]
      · simp [now]

theorem ValidTx.spent_present (valid : ValidTx env utxo tx) (spends : outpoint ∈ tx.spent) :
    ∃ output, utxo.get outpoint = some output ∧
      env.isProvablyUnspendable output.scriptPubkey = false := by
  rw [Tx.spent, valid.ordinary, if_neg (by decide), List.mem_map] at spends
  obtain ⟨input, listed, rfl⟩ := spends
  exact valid.unspent input listed

theorem applyTxs_get {output : EvaluatedTxOut}
    (present : (utxo.applyTxs txs).get outpoint = some output) :
    utxo.get outpoint = some output ∨ ∃ tx ∈ txs, (outpoint, output) ∈ tx.created := by
  induction txs generalizing utxo with
  | nil => exact Or.inl present
  | cons tx rest ih =>
      rcases @ih (utxo.applyTx tx) present with before | ⟨other, listed, made⟩
      · by_cases created : outpoint ∈ tx.created.map Prod.fst
        · exact Or.inr ⟨tx, List.mem_cons_self, Table.mem_of_get_extendList created before⟩
        · rw [Utxo.applyTx, Table.get_extendList_of_notMem created, Table.get_removeBatch] at before
          split at before
          · cases before
          · exact Or.inl before
      · exact Or.inr ⟨other, List.mem_cons_of_mem _ listed, made⟩

theorem ValidTxs.at_mem (valid : ValidTxs env utxo txs) (listed : tx ∈ txs) :
    ∃ past future, txs = past ++ tx :: future ∧ ValidTx env (utxo.applyTxs past) tx := by
  induction txs generalizing utxo with
  | nil => cases listed
  | cons first rest ih =>
      rcases List.mem_cons.mp listed with rfl | later
      · exact ⟨[], rest, rfl, valid.1⟩
      · obtain ⟨past, future, rfl, found⟩ := ih valid.2 later
        exact ⟨first :: past, future, rfl, found⟩

/-- Transactions whose hashes are new to the outputs that they can spend. -/
def NewTo (utxo : Utxo) (txs : List Tx) : Prop :=
  (txs.map Tx.hash).Nodup ∧ ∀ key ∈ utxo.keys, key.txid ∉ txs.map Tx.hash

theorem NewTo.tail (new : NewTo utxo (tx :: txs)) : NewTo (utxo.applyTx tx) txs := by
  obtain ⟨distinct, fresh⟩ := new
  simp only [List.map_cons, List.nodup_cons] at distinct
  refine ⟨distinct.2, ?_⟩
  intro key member listed
  have single : key ∈ (utxo.applyTxs [tx]).keys := member
  rcases Utxo.applyTxs_txid single with old | ⟨other, same, made⟩
  · exact fresh key old (List.mem_cons_of_mem _ listed)
  · rw [List.mem_singleton.mp same] at made
    rw [made] at listed
    exact distinct.1 listed

theorem NewTo.spent_older (new : NewTo utxo (tx :: txs)) (valid : ValidTx env utxo tx)
    (spends : outpoint ∈ tx.spent) : outpoint.txid ∉ (tx :: txs).map Tx.hash := by
  obtain ⟨output, present, _⟩ := valid.spent_present spends
  exact new.2 outpoint (Table.mem_keys_iff.mpr ⟨output, present⟩)

theorem spent_origin (valid : ValidTxs env utxo txs) (new : NewTo utxo txs)
    (spends : outpoint ∈ txs.flatMap Tx.spent) :
    (∃ output, utxo.get outpoint = some output ∧
      env.isProvablyUnspendable output.scriptPubkey = false) ∨
    outpoint.txid ∈ txs.map Tx.hash := by
  induction txs generalizing utxo with
  | nil => cases spends
  | cons tx rest ih =>
      obtain ⟨first, others⟩ := valid
      rw [List.flatMap_cons, List.mem_append] at spends
      rcases spends with now | later
      · exact Or.inl (first.spent_present now)
      rcases ih others new.tail later with ⟨output, present, spendable⟩ | own
      · by_cases made : outpoint.txid = tx.hash
        · exact Or.inr (by simp [made])
        · rw [get_applyTx utxo tx made] at present
          split at present
          · cases present
          · exact Or.inl ⟨output, present, spendable⟩
      · exact Or.inr (List.mem_cons_of_mem _ own)

theorem spent_nodup (valid : ValidTxs env utxo txs) (new : NewTo utxo txs) :
    (txs.flatMap Tx.spent).Nodup := by
  induction txs generalizing utxo with
  | nil => exact List.nodup_nil
  | cons tx rest ih =>
      obtain ⟨first, others⟩ := valid
      rw [List.flatMap_cons, List.nodup_append]
      refine ⟨?_, ih others new.tail, ?_⟩
      · rw [Tx.spent, first.ordinary, if_neg (by decide)]
        exact first.once
      · rintro outpoint now _ later rfl
        have older := new.spent_older first now
        simp only [List.map_cons, List.mem_cons, not_or] at older
        rcases spent_origin others new.tail later with ⟨output, present, _⟩ | own
        · rw [get_applyTx utxo tx older.1, if_pos now] at present
          cases present
        · exact older.2 own

theorem spent_later (valid : ValidTxs env utxo txs) (new : NewTo utxo txs) {past future : List Tx}
    (split : past ++ tx :: future = txs) (spends : outpoint ∈ (past ++ [tx]).flatMap Tx.spent) :
    outpoint.txid ≠ tx.hash := by
  induction past generalizing utxo txs with
  | nil =>
      subst split
      simp only [List.nil_append, List.flatMap_cons, List.flatMap_nil, List.append_nil] at spends
      have older := new.spent_older valid.1 spends
      simp only [List.map_cons, List.mem_cons, not_or] at older
      exact older.1
  | cons first rest ih =>
      subst split
      rw [List.cons_append, List.flatMap_cons, List.mem_append] at spends
      rcases spends with now | later
      · have older := new.spent_older valid.1 now
        exact fun same => older (List.mem_map.mpr ⟨tx, by simp, same.symm⟩)
      · exact ih valid.2 new.tail rfl later

theorem get_applyTxs_created (new : NewTo utxo txs) (listed : tx ∈ txs) {vout : Nat}
    {output : EvaluatedTxOut} (present : tx.outputs[vout]? = some output)
    (unspent : ⟨tx.hash, vout⟩ ∉ txs.flatMap Tx.spent) :
    (utxo.applyTxs txs).get ⟨tx.hash, vout⟩ = some output := by
  induction txs generalizing utxo with
  | nil => cases listed
  | cons first rest ih =>
      have tail := new.tail
      obtain ⟨distinct, _⟩ := new
      simp only [List.map_cons, List.nodup_cons] at distinct
      rw [List.flatMap_cons, List.mem_append, not_or] at unspent
      rw [Utxo.applyTxs, List.foldl_cons, ← Utxo.applyTxs]
      rcases List.mem_cons.mp listed with rfl | later
      · rw [get_applyTxs _ rest distinct.1, if_neg unspent.2, Utxo.applyTx]
        exact get_extend_created _ present
      · exact ih tail later unspent.2

theorem spent_gone (valid : ValidTxs env utxo txs) (new : NewTo utxo txs)
    (spends : outpoint ∈ txs.flatMap Tx.spent) : (utxo.applyTxs txs).get outpoint = none := by
  induction txs generalizing utxo with
  | nil => cases spends
  | cons tx rest ih =>
      rw [List.flatMap_cons, List.mem_append] at spends
      rw [Utxo.applyTxs, List.foldl_cons, ← Utxo.applyTxs]
      rcases spends with now | later
      · have older := new.spent_older valid.1 now
        simp only [List.map_cons, List.mem_cons, not_or] at older
        rw [get_applyTxs _ rest older.2, get_applyTx utxo tx older.1, if_pos now, ite_self]
      · exact ih valid.2 new.tail later

namespace ValidBlock

variable {used : Finset Txid} {block : Block}

theorem newTo (valid : ValidBlock env utxo used block) (old : ∀ key ∈ utxo.keys, key.txid ∈ used)
    {coinbase : Tx} {rest : List Tx} (shape : block.txs = coinbase :: rest) :
    NewTo utxo rest := by
  have distinct := valid.distinct
  rw [shape, List.map_cons, List.nodup_cons] at distinct
  refine ⟨distinct.2, ?_⟩
  intro key member listed
  obtain ⟨tx, present, same⟩ := List.mem_map.mp listed
  exact valid.fresh tx (by simp [shape, present]) (same ▸ old key member)

theorem spent_nodup (valid : ValidBlock env utxo used block)
    (old : ∀ key ∈ utxo.keys, key.txid ∈ used) : (block.txs.flatMap Tx.spent).Nodup := by
  obtain ⟨coinbase, rest, shape, first, others⟩ := valid.shape
  rw [shape, List.flatMap_cons, Tx.spent, if_pos first, List.nil_append]
  exact WjkIndexer.spent_nodup others (valid.newTo old shape)

theorem spent_later (valid : ValidBlock env utxo used block)
    (old : ∀ key ∈ utxo.keys, key.txid ∈ used) {past future : List Tx}
    (split : past ++ tx :: future = block.txs)
    (spends : outpoint ∈ (past ++ [tx]).flatMap Tx.spent) : outpoint.txid ≠ tx.hash := by
  obtain ⟨coinbase, rest, shape, first, others⟩ := valid.shape
  rw [shape] at split
  cases past with
  | nil =>
      cases split
      simp [Tx.spent, first] at spends
  | cons head earlier =>
      cases split
      rw [List.cons_append, List.flatMap_cons, Tx.spent, if_pos first, List.nil_append] at spends
      exact WjkIndexer.spent_later others (valid.newTo old shape) rfl spends

theorem spent_origin (valid : ValidBlock env utxo used block)
    (old : ∀ key ∈ utxo.keys, key.txid ∈ used) (spends : outpoint ∈ block.txs.flatMap Tx.spent) :
    (∃ output, utxo.get outpoint = some output ∧
      env.isProvablyUnspendable output.scriptPubkey = false) ∨
    outpoint.txid ∈ block.txids := by
  obtain ⟨coinbase, rest, shape, first, others⟩ := valid.shape
  rw [shape, List.flatMap_cons, Tx.spent, if_pos first, List.nil_append] at spends
  rcases WjkIndexer.spent_origin others (valid.newTo old shape) spends with present | own
  · exact Or.inl present
  · exact Or.inr (by simp [Block.txids, shape, own])

theorem get_applyBlock (valid : ValidBlock env utxo used block)
    (older : outpoint.txid ∉ block.txids) :
    (utxo.applyBlock block).get outpoint =
      if outpoint ∈ block.txs.flatMap Tx.spent then none else utxo.get outpoint := by
  obtain ⟨coinbase, rest, shape, first, others⟩ := valid.shape
  simp only [Block.txids, shape, List.map_cons, List.mem_toFinset, List.mem_cons, not_or] at older
  simp only [Utxo.applyBlock, shape]
  rw [Table.get_extendList_of_notMem (created_of_ne older.1), get_applyTxs _ _ older.2,
    List.flatMap_cons, Tx.spent, if_pos first, List.nil_append]

theorem spent_ordinary (valid : ValidBlock env utxo used block)
    (old : ∀ key ∈ utxo.keys, key.txid ∈ used) {coinbase : Tx} {rest : List Tx}
    (shape : block.txs = coinbase :: rest) (spends : outpoint ∈ block.txs.flatMap Tx.spent) :
    outpoint ∈ rest.flatMap Tx.spent ∧ outpoint.txid ≠ coinbase.hash := by
  obtain ⟨leading, remaining, sameShape, first, others⟩ := valid.shape
  obtain ⟨rfl, rfl⟩ := List.cons.inj (shape.symm.trans sameShape)
  have distinct := valid.distinct
  rw [shape, List.map_cons, List.nodup_cons] at distinct
  rw [shape, List.flatMap_cons, Tx.spent, if_pos first, List.nil_append] at spends
  refine ⟨spends, ?_⟩
  intro same
  rcases WjkIndexer.spent_origin others (valid.newTo old shape) spends with
    ⟨output, present, _⟩ | own
  · have known := old outpoint (Table.mem_keys_iff.mpr ⟨output, present⟩)
    exact valid.fresh coinbase (by simp [shape]) (same ▸ known)
  · exact distinct.1 (same ▸ own)

theorem spent_gone (valid : ValidBlock env utxo used block)
    (old : ∀ key ∈ utxo.keys, key.txid ∈ used) (spends : outpoint ∈ block.txs.flatMap Tx.spent) :
    (utxo.applyBlock block).get outpoint = none := by
  obtain ⟨coinbase, rest, shape, _, others⟩ := valid.shape
  obtain ⟨spends, different⟩ := valid.spent_ordinary old shape spends
  simp only [Utxo.applyBlock, shape]
  rw [Table.get_extendList_of_notMem (created_of_ne different)]
  exact WjkIndexer.spent_gone others (valid.newTo old shape) spends

theorem get_created (valid : ValidBlock env utxo used block)
    (old : ∀ key ∈ utxo.keys, key.txid ∈ used) (listed : tx ∈ block.txs) {vout : Nat}
    {output : EvaluatedTxOut} (present : tx.outputs[vout]? = some output)
    (unspent : ⟨tx.hash, vout⟩ ∉ block.txs.flatMap Tx.spent) :
    (utxo.applyBlock block).get ⟨tx.hash, vout⟩ = some output := by
  obtain ⟨coinbase, rest, shape, first, others⟩ := valid.shape
  have distinct := valid.distinct
  rw [shape, List.map_cons, List.nodup_cons] at distinct
  rw [shape, List.flatMap_cons, Tx.spent, if_pos first, List.nil_append] at unspent
  simp only [Utxo.applyBlock, shape]
  rw [shape, List.mem_cons] at listed
  rcases listed with rfl | later
  · exact get_extend_created _ present
  · have different : (⟨tx.hash, vout⟩ : OutPoint).txid ≠ coinbase.hash :=
      fun same => distinct.1 (same ▸ List.mem_map.mpr ⟨tx, later, rfl⟩)
    rw [Table.get_extendList_of_notMem (created_of_ne different)]
    exact get_applyTxs_created (valid.newTo old shape) later present unspent

end ValidBlock

theorem applyBlock_origin {block : Block} (member : outpoint ∈ (utxo.applyBlock block).keys) :
    outpoint ∈ utxo.keys ∨
      ∃ tx ∈ block.txs, ∃ output, outpoint.txid = tx.hash ∧
        tx.outputs[outpoint.vout]? = some output := by
  have made : ∀ {tx : Tx} {outpoint : OutPoint}, outpoint ∈ tx.created.map Prod.fst →
      ∃ output, outpoint.txid = tx.hash ∧ tx.outputs[outpoint.vout]? = some output := by
    intro tx outpoint created
    obtain ⟨entry, listed, rfl⟩ := List.mem_map.mp created
    exact ⟨entry.2, created_iff.mp listed⟩
  have others : ∀ (txs : List Tx) (utxo : Utxo), outpoint ∈ (utxo.applyTxs txs).keys →
      outpoint ∈ utxo.keys ∨ ∃ tx ∈ txs, ∃ output, outpoint.txid = tx.hash ∧
        tx.outputs[outpoint.vout]? = some output := by
    intro txs
    induction txs with
    | nil => exact fun _ member => Or.inl member
    | cons tx rest ih =>
        intro utxo member
        rcases ih (utxo.applyTx tx) member with old | ⟨other, listed, present⟩
        · rcases Table.mem_keys_extendList old with kept | created
          · exact Or.inl (Table.mem_keys_removeBatch kept)
          · exact Or.inr ⟨tx, List.mem_cons_self, made created⟩
        · exact Or.inr ⟨other, List.mem_cons_of_mem _ listed, present⟩
  unfold Utxo.applyBlock at member
  split at member
  · exact Or.inl member
  · rename_i coinbase rest shape
    rw [shape]
    rcases Table.mem_keys_extendList member with spent | created
    · rcases others rest utxo spent with old | ⟨tx, listed, present⟩
      · exact Or.inl old
      · exact Or.inr ⟨tx, List.mem_cons_of_mem _ listed, present⟩
    · exact Or.inr ⟨coinbase, List.mem_cons_self, made created⟩

end WjkIndexer
