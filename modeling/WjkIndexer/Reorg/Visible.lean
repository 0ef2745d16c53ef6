import WjkIndexer.Reorg.Exact

/-!
The tables that a restore does not bring back: proofs of history stay behind, so that only a
restore of no blocks leaves none above its height.
-/

namespace WjkIndexer

open FiniteTable

theorem undo_keeps {A : Type} (view : DB → A)
    (header : ∀ db last infos, view { db with lastBlock := last, blockInfo := infos } = view db)
    (tokens : ∀ (entry : TokenHistoryEntry) db, view (entry.proceed db) = view db)
    (ordinals : ∀ (entry : OrdinalsEntry) db, view (entry.proceed db) = view db)
    (block : ReorgHistoryBlock) (height : Nat) (db : DB) :
    view (block.undo height db) = view db := by
  have tokenEntries : ∀ (entries : List TokenHistoryEntry) (db : DB),
      view (entries.foldr (fun entry db => entry.proceed db) db) = view db := by
    intro entries db
    induction entries with
    | nil => rfl
    | cons entry rest ih => rw [List.foldr_cons, tokens, ih]
  have ordinalsEntries : ∀ (entries : List OrdinalsEntry) (db : DB),
      view (entries.foldr (fun entry db => entry.proceed db) db) = view db := by
    intro entries db
    induction entries with
    | nil => rfl
    | cons entry rest ih => rw [List.foldr_cons, ordinals, ih]
  rw [ReorgHistoryBlock.undo, ordinalsEntries, tokenEntries, header]

theorem restoreBlocks_proofs (target : Nat) (blocks : List (Nat × ReorgHistoryBlock)) (db : DB) :
    (ReorgCache.restoreBlocks target blocks db).2.proofOfHistory = db.proofOfHistory := by
  induction blocks generalizing db with
  | nil => rfl
  | cons entry lower ih =>
      rw [ReorgCache.restoreBlocks]
      split
      · rw [ih]
        exact undo_keeps DB.proofOfHistory (fun _ _ _ => rfl)
          (fun entry _ => by cases entry <;> rfl) (fun entry _ => by cases entry <;> rfl) _ _ _
      · rfl

theorem proofs_handled {env : Env} {server : Server} {height : Nat} {block : Block}
    {handled : Handled} (result : HandledBlock env server height block handled)
    (begun : env.startHeight ≤ height) :
    ∃ proof, (applyAll handled.processed server.db).proofOfHistory =
      server.db.proofOfHistory.set height proof := by
  cases result with
  | early before => omega
  | empty => exact ⟨_, rfl⟩
  | full => exact ⟨_, rfl⟩

theorem proofs_written {env : Env} {process final : Process} {height : Nat} {blocks : List Block}
    (written : Written env process height blocks final) (sound : Sound (fun _ _ => True) process)
    (begun : env.startHeight ≤ height + 1) :
    (∀ key, process.db.proofOfHistory.get key ≠ none → final.db.proofOfHistory.get key ≠ none) ∧
      (blocks ≠ [] → final.db.proofOfHistory.get (height + 1) ≠ none) := by
  induction written with
  | nil => exact ⟨fun _ known => known, fun some => absurd rfl some⟩
  | @cons process next final height block blocks valid stepped rest ih =>
      have nextSound := sound.block always_ofLedger valid (fun _ _ => trivial) stepped
      obtain ⟨handled, handling, server, _⟩ := step_block stepped (sound.below valid.1)
      obtain ⟨proof, set⟩ := proofs_handled (handleBlock_handled handling) begun
      have db : next.db.proofOfHistory = process.db.proofOfHistory.set (height + 1) proof := by
        rw [Process.db, server]
        exact set
      obtain ⟨kept, _⟩ := ih nextSound (by omega)
      refine ⟨?_, fun _ => kept (height + 1) ?_⟩
      · intro key known
        apply kept
        rw [db, Table.get_set]
        split
        · exact Option.some_ne_none _
        · exact known
      · rw [db, Table.get_set_self]
        exact Option.some_ne_none _

/-- The tables that are only read by the endpoints are as before, without later proofs. -/
structure Forgotten (after before : DB) (height : Nat) : Prop where
  proofs : after.proofOfHistory = before.proofOfHistory
  events : after.outpointToEvent = before.outpointToEvent
  above : ∀ later, height < later → after.proofOfHistory.get later = none

/-- Undone blocks are forgotten exactly when there are none, and none was undone before. -/
theorem restore_forgets_iff {env : Env} {allowed : Process → Event → Prop}
    {process final : Process} {height : Nat} {blocks : List Block}
    (reached : Reachable env allowed process) (last : process.db.lastBlock = some height)
    (begun : env.startHeight ≤ height + 1)
    (written : Written env process height blocks final) :
    Forgotten (final.reorgCache.restore final.db height).2 process.db height ↔
      blocks = [] ∧ ∀ later, height < later → process.db.proofOfHistory.get later = none := by
  have sound := reachable_sound always_ofLedger trivial
    (fun _ _ _ _ _ _ _ _ _ => trivial) reached
  have proofs : (final.reorgCache.restore final.db height).2.proofOfHistory =
      final.db.proofOfHistory := restoreBlocks_proofs height _ _
  constructor
  · intro forgotten
    refine ⟨?_, fun later above => forgotten.proofs ▸ forgotten.above later above⟩
    by_contra some
    have left := (proofs_written written sound begun).2 some
    rw [← proofs, forgotten.above (height + 1) (Nat.lt_succ_self height)] at left
    exact left rfl
  · rintro ⟨rfl, none⟩
    cases written
    have topped := reachable_topped reached
    have untouched : (process.reorgCache.restore process.db height).2 = process.db := by
      rw [ReorgCache.restore, ReorgCache.restoreBlocks_below]
      exact fun top head => topped.topped top head height last begun
    rw [untouched]
    exact ⟨rfl, rfl, none⟩

theorem wojak_forgotten :
    ∃ process, Reachable Sample.env (fun _ _ => True) process ∧
      process.db.proofOfHistory.keys.card = 2 ∧
      Forgotten (process.reorgCache.restore process.db 2).2 process.db 2 := by
  obtain ⟨process, reached, last, proofs, above⟩ : ∃ process,
      Reachable Sample.env (fun _ _ => True) process ∧ process.db.lastBlock = some 2 ∧
      process.db.proofOfHistory.keys.card = 2 ∧ ∀ key ∈ process.db.proofOfHistory.keys, key ≤ 2 :=
    replay_any Sample.lockWojak (by decide +kernel)
  refine ⟨process, reached, proofs,
    (restore_forgets_iff reached last (by decide) .nil).mpr ⟨rfl, ?_⟩⟩
  intro later high
  apply Table.get_eq_none_iff.mpr
  intro member
  exact absurd (above later member) (Nat.not_le.mpr high)

/-- The proof of an undone block stays. -/
theorem wojak_remembered :
    ∃ process final, Reachable Sample.env (fun _ _ => True) process ∧
      process.db.lastBlock = some 1 ∧
      Written Sample.env process 1 [Sample.inscribeWojak] final ∧
      ¬ Forgotten (final.reorgCache.restore final.db 1).2 process.db 1 := by
  obtain ⟨process, reached, last, steps⟩ : ∃ process,
      Reachable Sample.env (fun _ _ => True) process ∧ process.db.lastBlock = some 1 ∧
      (process.checkedStep Sample.env (fun _ _ => True) (.block 2 Sample.inscribeWojak true)).any
        (fun next => decide
          ((next.reorgCache.restore next.db 1).2.proofOfHistory.get 2 ≠ none)) = true :=
    replay_any [.block 1 Sample.payWojak true] (by decide +kernel)
  obtain ⟨final, checked, left⟩ := (Option.any_eq_true _ _).mp steps
  obtain ⟨valid, _, stepped⟩ := checkedStep_some checked
  refine ⟨process, final, reached, last, .cons valid stepped .nil, ?_⟩
  intro forgotten
  exact of_decide_eq_true left (forgotten.above 2 (by decide))

end WjkIndexer
