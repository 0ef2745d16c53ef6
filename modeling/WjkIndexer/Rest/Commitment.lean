import WjkIndexer.Indexer.Reordered
import WjkIndexer.Rest.Proofs

/-!
What a proof of history commits two servers to that show it.
-/

namespace WjkIndexer

open FiniteTable Machine

namespace Journal

/-- Two runs that show the same proof at a height were told the same of all the blocks below that
both have applied, when no two of the messages that they hashed share a digest. Each of them has
its own order of the offsets of an output. -/
theorem proofs_bind {env : Env} {iterate : OutPoint → Finset Nat → List Nat}
    (nodup : ∀ outpoint offsets, (iterate outpoint offsets).Nodup)
    (mem : ∀ outpoint offsets offset, offset ∈ iterate outpoint offsets ↔ offset ∈ offsets)
    {first second : Journal} (reached : first.Reached env)
    (other : second.Reached (env.reordered iterate nodup mem))
    (apart : Set.InjOn env.sha256 ↑(first.messages env ∪ second.messages env)) {low high : Nat}
    (begun : env.startHeight ≤ low) (order : low ≤ high)
    (lower : low ∈ first.heights ∧ low ∈ second.heights)
    (upper : high ∈ first.heights ∧ high ∈ second.heights)
    (same : first.process.db.proofOfHistory.get high =
      second.process.db.proofOfHistory.get high) :
    ∀ height, low ≤ height → height ≤ high → ∃ input,
      first.inputs.get height = some input ∧ second.inputs.get height = some input := by
  have left := reached.chained
  have right := other.chained
  -- equal proofs lead to equal inputs, and these hold the proofs one height below
  have opened : ∀ height, low ≤ height → height ≤ high →
      first.process.db.proofOfHistory.get height = second.process.db.proofOfHistory.get height →
      ∃ input, first.inputs.get height = some input ∧ second.inputs.get height = some input := by
    intro height above below agree
    obtain ⟨input, recorded, proof⟩ := left.proofs height
      (left.between lower.1 upper.1 above below) (begun.trans above)
    obtain ⟨otherInput, otherRecorded, otherProof⟩ := right.proofs height
      (right.between lower.2 upper.2 above below) (begun.trans above)
    rw [proof, otherProof, Option.some.injEq] at agree
    have equal := ProofInput.proof_inj apart
      ((mem_messages recorded).trans Finset.subset_union_left)
      ((mem_messages otherRecorded).trans Finset.subset_union_right) agree
    exact ⟨input, recorded, equal ▸ otherRecorded⟩
  suffices descent : ∀ count height, height + count = high → low ≤ height → ∃ input,
      first.inputs.get height = some input ∧ second.inputs.get height = some input from
    fun height above below => descent (high - height) height (by omega) above
  intro count
  induction count with
  | zero =>
      rintro height rfl above
      exact opened height above (Nat.le_refl _) same
  | succ count ih =>
      intro height sum above
      refine opened height above (by omega) ?_
      obtain ⟨input, recorded, otherRecorded⟩ := ih (height + 1) (by omega) (by omega)
      have begins := begun.trans above
      rw [left.prev height (left.between lower.1 upper.1 above (by omega))
          (left.between lower.1 upper.1 (by omega) (by omega)) begins input recorded,
        right.prev height (right.between lower.2 upper.2 above (by omega))
          (right.between lower.2 upper.2 (by omega) (by omega)) begins input otherRecorded]

theorem wojak_bound : ∃ first second : Journal, first.Reached Sample.jsonEnv ∧
    second.Reached Sample.jsonEnv.backwards ∧ first.process.chain.length = 2 ∧
    (∃ key value, first.process.db.addressTokenToHistory.get key = some value ∧
      value.height = 2) ∧
    ∀ height, 1 ≤ height → height ≤ 2 → ∃ input,
      first.inputs.get height = some input ∧ second.inputs.get height = some input := by
  obtain ⟨first, reached, length, told, rest⟩ : ∃ first : Journal, first.Reached Sample.jsonEnv ∧
      first.process.chain.length = 2 ∧
      (∃ key ∈ first.process.db.addressTokenToHistory.keys,
        ∃ value ∈ first.process.db.addressTokenToHistory.get key, value.height = 2) ∧
      (Sample.lockWojak.foldlM
        (checked (Journal.step Sample.jsonEnv.backwards)
          (Permitted Sample.jsonEnv.backwards)) {}).any
        (fun second => decide
          (((first.messages Sample.jsonEnv ∪ second.messages Sample.jsonEnv).image
              Sample.jsonEnv.sha256).card =
            (first.messages Sample.jsonEnv ∪ second.messages Sample.jsonEnv).card ∧
          (1 ∈ first.heights ∧ 1 ∈ second.heights) ∧ (2 ∈ first.heights ∧ 2 ∈ second.heights) ∧
          first.process.db.proofOfHistory.get 2 = second.process.db.proofOfHistory.get 2)) =
        true :=
    Reaches.any (Sample.lockWojak ++ [.restore 1, .block 2 Sample.inscribeWojak true])
      (by decide +kernel)
  obtain ⟨second, other, apart, lower, upper, same⟩ := Reaches.any _ rest
  obtain ⟨key, _, value, stored, own⟩ := told
  exact ⟨first, second, reached, other, length, ⟨key, value, stored, own⟩,
    proofs_bind _ _ reached other (Finset.card_image_iff.mp apart) (by decide) (by decide) lower
      upper same⟩

end Journal

end WjkIndexer
