import WjkIndexer.Indexer.Replay

/-!
Ticks of requests: the key that an endpoint computes from a tick, and the key under which
the token is stored.
-/

namespace WjkIndexer

open FiniteTable

structure OriginalTokenTickRest where
  bytes : Bytes
  size : bytes.length = 8
  deriving Repr

namespace OriginalTokenTickRest

def deserialize (text : Bytes) : Except String OriginalTokenTickRest :=
  if fits : text ≠ [] ∧ text.length ≤ 8 then
    .ok {
      bytes := text ++ List.replicate (8 - text.length) 0
      size := by
        have short := fits.2
        simp only [List.length_append, List.length_replicate]
        omega }
  else .error "Invalid tick length"

/-- `AsRef<[u8]>`: all the bytes of the tick. -/
def asRef (tick : OriginalTokenTickRest) : Bytes := tick.bytes

end OriginalTokenTickRest

def Env.lowerRest (env : Env) (tick : OriginalTokenTickRest) : LowerCaseTokenTick :=
  env.lowercase tick.asRef

def DB.restToken (env : Env) (db : DB) (tick : OriginalTokenTickRest) : Option TokenMeta :=
  db.tokenToMeta.get (env.lowerRest tick)

def KeepsZeros (env : Env) : Prop :=
  ∀ text, env.lowercase (text ++ [0]) = env.lowercase text ++ [0]

variable {env : Env} {text : Bytes}

theorem KeepsZeros.append (zeros : KeepsZeros env) (text : Bytes) (count : Nat) :
    env.lowercase (text ++ List.replicate count 0) =
      env.lowercase text ++ List.replicate count 0 := by
  induction count with
  | zero => simp
  | succ count ih =>
      rw [List.replicate_succ', ← List.append_assoc, zeros, ih, List.append_assoc]

theorem trimTickBytes_append (text : Bytes) (count : Nat) :
    trimTickBytes (text ++ List.replicate count 0) = trimTickBytes text := by
  induction count with
  | zero => simp
  | succ count ih =>
      rw [List.replicate_succ', ← List.append_assoc, trimTickBytes,
        List.rdropWhile_concat_pos _ _ _ (by decide)]
      exact ih

theorem trimTickBytes_split (text : Bytes) :
    ∃ count, text = trimTickBytes text ++ List.replicate count 0 ∧
      (count = 0 ↔ text.getLast? ≠ some 0) := by
  induction text using List.reverseRecOn with
  | nil => exact ⟨0, rfl, by simp⟩
  | append_singleton rest last ih =>
      by_cases zero : last = 0
      · subst zero
        obtain ⟨count, split, _⟩ := ih
        refine ⟨count + 1, ?_, by simp⟩
        rw [trimTickBytes, List.rdropWhile_concat_pos _ _ _ (by decide), List.replicate_succ',
          ← List.append_assoc, ← trimTickBytes, ← split]
      · refine ⟨0, ?_, by simp [zero]⟩
        rw [trimTickBytes, List.rdropWhile_concat_neg _ _ _ (by simpa using zero)]
        simp

theorem lowerRest_eq (zeros : KeepsZeros env) {tick : OriginalTokenTick}
    {rest : OriginalTokenTickRest} {query : Bytes} (accepted : padTickBytes env text = .ok tick)
    (received : OriginalTokenTickRest.deserialize query = .ok rest)
    (same : env.lowercase query = env.lowercase text) :
    ∃ count, env.lowerRest rest = env.lower tick ++ List.replicate count 0 ∧
      (count = 0 ↔ query.length = 8 ∧ text.getLast? ≠ some 0) := by
  unfold padTickBytes at accepted
  unfold OriginalTokenTickRest.deserialize at received
  split at accepted
  · rename_i fits
    split at received
    · rename_i short
      cases accepted
      cases received
      obtain ⟨count, split, none⟩ := trimTickBytes_split text
      refine ⟨count + (8 - query.length), ?_, ?_⟩
      · have key : env.lowercase text =
            env.lowercase (trimTickBytes text) ++ List.replicate count 0 := by
          rw [← zeros.append, ← split]
        rw [Env.lowerRest, OriginalTokenTickRest.asRef, zeros.append, same, key, Env.lower,
          trimTickBytes_append, List.append_assoc, List.replicate_append_replicate]
      · rw [← none]
        omega
    · cases received
  · cases accepted

/-- A request finds the key of a token that it spells, up to case, exactly when it fills all
the bytes of a tick and the token's tick has no zero at its end. -/
theorem lowerRest_iff (zeros : KeepsZeros env) {tick : OriginalTokenTick}
    {rest : OriginalTokenTickRest} {query : Bytes} (accepted : padTickBytes env text = .ok tick)
    (received : OriginalTokenTickRest.deserialize query = .ok rest)
    (same : env.lowercase query = env.lowercase text) :
    env.lowerRest rest = env.lower tick ↔ query.length = 8 ∧ text.getLast? ≠ some 0 := by
  obtain ⟨count, key, none⟩ := lowerRest_eq zeros accepted received same
  rw [← none, key]
  simp

theorem ofRecords_keepsZeros (blockchain : Blockchain) (network : Network)
    (records : List (Bytes × RawBrc4)) : KeepsZeros (.ofRecords blockchain network records) := by
  intro text
  have zero : Env.asciiLower 0 = 0 := by decide
  simp [Env.ofRecords, zero]

theorem wojakwjk_found :
    ∃ tick rest, padTickBytes Sample.env (Sample.text "wojakwjk") = .ok tick ∧
      OriginalTokenTickRest.deserialize (Sample.text "WojakWJK") = .ok rest ∧
      Sample.env.lowerRest rest = Sample.env.lower tick := by
  have sizeRest : (Sample.text "WojakWJK").length = 8 := by decide +kernel
  obtain ⟨tick, accepted⟩ : ∃ tick, padTickBytes Sample.env (Sample.text "wojakwjk") = .ok tick :=
    ⟨_, dif_pos (by decide +kernel)⟩
  obtain ⟨rest, received⟩ :
      ∃ rest, OriginalTokenTickRest.deserialize (Sample.text "WojakWJK") = .ok rest :=
    ⟨_, dif_pos (by decide +kernel)⟩
  exact ⟨tick, rest, accepted, received,
    (lowerRest_iff (ofRecords_keepsZeros _ _ _) accepted received (by decide +kernel)).mpr
      ⟨sizeRest, by decide +kernel⟩⟩

/-- A deployed token with a shorter tick is not found under the very tick it was deployed with. -/
theorem wojak_not_found :
    ∃ process tick rest, Reachable Sample.env (fun _ _ => True) process ∧
      padTickBytes Sample.env (Sample.text "wojak") = .ok tick ∧
      OriginalTokenTickRest.deserialize (Sample.text "wojak") = .ok rest ∧
      process.db.tokenToMeta.get (Sample.env.lower tick) ≠ none ∧
      process.db.restToken Sample.env rest = none ∧
      Sample.env.lowerRest rest ≠ Sample.env.lower tick := by
  obtain ⟨process, reached, found⟩ : ∃ process, Reachable Sample.env (fun _ _ => True) process ∧
      (∃ tick ∈ (padTickBytes Sample.env (Sample.text "wojak")).toOption,
        ∃ rest ∈ (OriginalTokenTickRest.deserialize (Sample.text "wojak")).toOption,
          process.db.tokenToMeta.get (Sample.env.lower tick) ≠ none ∧
          process.db.restToken Sample.env rest = none ∧
          Sample.env.lowerRest rest ≠ Sample.env.lower tick) :=
    replay_any Sample.lockWojak (by decide +kernel)
  obtain ⟨tick, accepted, rest, received, found⟩ := found
  exact ⟨process, tick, rest, reached, Machine.toOption_some.mp accepted,
    Machine.toOption_some.mp received, found⟩

end WjkIndexer
