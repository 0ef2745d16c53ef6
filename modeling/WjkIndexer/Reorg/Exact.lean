import WjkIndexer.Indexer.Replay
import WjkIndexer.Indexer.Ledger

/-!
Exactness of a restore: blocks that were written with their undo entries are taken back,
however many of them wrote the same keys.
-/

namespace WjkIndexer

open FiniteTable

/-- A run of blocks on top of height `height`, each written with its undo entries. -/
inductive Written (env : Env) : Process → Nat → List Block → Process → Prop where
  | nil {process : Process} {height : Nat} : Written env process height [] process
  | cons {process next final : Process} {height : Nat} {block : Block} {blocks : List Block}
      (valid : (Event.block (height + 1) block true).Valid env process)
      (stepped : process.step env (.block (height + 1) block true) = .ok next)
      (rest : Written env next (height + 1) blocks final) :
      Written env process height (block :: blocks) final

def undoAll (blocks : List (Nat × ReorgHistoryBlock)) (db : DB) : DB :=
  blocks.foldl (fun db entry => entry.2.undo entry.1 db) db

namespace ReorgCache

theorem restoreBlocks_append {target : Nat} {blocks : List (Nat × ReorgHistoryBlock)}
    (above : ∀ entry ∈ blocks, target < entry.1) (lower : List (Nat × ReorgHistoryBlock))
    (db : DB) :
    restoreBlocks target (blocks ++ lower) db = restoreBlocks target lower (undoAll blocks db) := by
  induction blocks generalizing db with
  | nil => rfl
  | cons entry rest ih =>
      have later := ih (fun other listed => above other (List.mem_cons_of_mem _ listed))
        (entry.2.undo entry.1 db)
      rw [List.cons_append, restoreBlocks, if_pos (above entry List.mem_cons_self), later]
      rfl

theorem restoreBlocks_below {target : Nat} {blocks : List (Nat × ReorgHistoryBlock)}
    (below : ∀ top ∈ blocks.head?, top.1 ≤ target) (db : DB) :
    restoreBlocks target blocks db = (blocks, db) := by
  cases blocks with
  | nil => rfl
  | cons entry lower =>
      have reached : entry.1 ≤ target := below entry rfl
      rw [restoreBlocks, if_neg (Nat.not_lt.mpr reached)]

theorem restoreBlocks_suffix (target : Nat) (blocks : List (Nat × ReorgHistoryBlock)) (db : DB) :
    (restoreBlocks target blocks db).1 <:+ blocks := by
  induction blocks generalizing db with
  | nil => exact List.suffix_refl _
  | cons entry lower ih =>
      rw [restoreBlocks]
      split
      · exact (ih _).trans (List.suffix_cons _ _)
      · exact List.suffix_refl _

end ReorgCache

theorem SameLedger.undoAll {left right : DB} (same : SameLedger left right)
    (blocks : List (Nat × ReorgHistoryBlock)) :
    SameLedger (undoAll blocks left) (undoAll blocks right) := by
  induction blocks generalizing left right with
  | nil => exact same
  | cons entry rest ih => exact ih (same.undo entry.2 entry.1)

theorem undoAll_append (first second : List (Nat × ReorgHistoryBlock)) (db : DB) :
    undoAll (first ++ second) db = undoAll second (undoAll first db) := by
  simp [undoAll]

theorem kept_eq_take {cache : ReorgCache} (len : cache.len = reorgCacheMaxLen)
    (short : cache.blocks.length ≤ reorgCacheMaxLen) :
    cache.kept = cache.blocks.take (reorgCacheMaxLen - 1) := by
  unfold ReorgCache.kept
  rw [len]
  split
  · rename_i full
    rw [List.dropLast_eq_take, full]
  · rw [List.take_of_length_le]
    omega

/-- What a run of blocks leaves in the cache: their entries, which undo the run, over the
blocks that were cached before. -/
structure Undoing (process final : Process) (height : Nat) (count : Nat)
    (entries : List (Nat × ReorgHistoryBlock)) : Prop where
  blocks : final.reorgCache.blocks =
    entries ++ process.reorgCache.blocks.take (reorgCacheMaxLen - count)
  length : entries.length = count
  above : ∀ entry ∈ entries, height < entry.1
  ledger : SameLedger (undoAll entries final.db) process.db
  lastBlock : entries ≠ [] → (undoAll entries final.db).lastBlock = some height

theorem always_ofLedger : OfLedger fun _ _ => True := fun _ _ _ _ _ => trivial

theorem written_undoing {env : Env} {process final : Process} {height : Nat}
    {blocks : List Block} (written : Written env process height blocks final)
    (sound : Sound (fun _ _ => True) process) (short : blocks.length ≤ reorgCacheMaxLen) :
    ∃ entries, Undoing process final height blocks.length entries := by
  induction written with
  | @nil process height =>
      refine ⟨[], ?_⟩
      exact {
        blocks := by
          rw [List.nil_append, List.length_nil, Nat.sub_zero, List.take_of_length_le sound.short]
        length := rfl
        above := fun _ impossible => by cases impossible
        ledger := .refl _
        lastBlock := fun nonempty => absurd rfl nonempty }
  | @cons process next final height block blocks valid stepped rest ih =>
      rw [List.length_cons] at short
      have nextSound := sound.block always_ofLedger valid (fun _ _ => trivial) stepped
      obtain ⟨entries, undoing⟩ := ih nextSound (by omega)
      obtain ⟨handled, handling, server, _, _, cached⟩ :=
        step_block stepped (sound.below valid.1)
      have undone := undo_handled (handleBlock_handled handling) sound.placed valid.1
        (fun txid own => valid.2.txids_disjoint own)
      have last := undo_lastBlock (entriesOf handled.processed process.db) (height + 1)
        (undoAll entries final.db)
      have reached : SameLedger (undoAll entries final.db)
          (applyAll handled.processed process.db) := by
        have ledger := undoing.ledger
        rw [show next.db = applyAll handled.processed process.db by rw [Process.db, server]]
          at ledger
        exact ledger
      simp only [if_true, kept_eq_take sound.len sound.short] at cached
      refine ⟨entries ++ [(height + 1, entriesOf handled.processed process.db)], ?_⟩
      refine {
        blocks := ?_
        length := by rw [List.length_append, undoing.length, List.length_cons]; rfl
        above := ?_
        ledger := ?_
        lastBlock := ?_ }
      · obtain ⟨room, roomEq⟩ : ∃ room, reorgCacheMaxLen - blocks.length = room + 1 :=
          ⟨reorgCacheMaxLen - blocks.length - 1, by omega⟩
        rw [undoing.blocks, cached, roomEq, List.take_succ_cons, List.take_take,
          List.append_assoc, List.singleton_append, List.length_cons]
        congr 3
        omega
      · intro entry listed
        rcases List.mem_append.mp listed with later | first
        · exact Nat.lt_of_succ_lt (undoing.above entry later)
        · rw [List.mem_singleton.mp first]
          exact Nat.lt_succ_self height
      · rw [undoAll_append]
        exact (reached.undo _ _).trans undone
      · intro _
        rw [undoAll_append]
        exact last

structure Topped (env : Env) (process : Process) : Prop where
  descending : (process.reorgCache.blocks.map Prod.fst).Pairwise (· > ·)
  topped : ∀ top ∈ process.reorgCache.blocks.head?, ∀ last, process.db.lastBlock = some last →
    env.startHeight ≤ last + 1 → top.1 ≤ last

theorem lastBlock_handled {env : Env} {server : Server} {height : Nat} {block : Block}
    {handled : Handled} (result : HandledBlock env server height block handled) (db : DB) :
    (applyAll handled.processed db).lastBlock =
      if height < env.startHeight then db.lastBlock else some height := by
  cases result with
  | early before => rw [if_pos before]; rfl
  | empty begun => rw [if_neg (Nat.not_lt.mpr begun)]; rfl
  | full begun => rw [if_neg (Nat.not_lt.mpr begun)]; rfl

namespace Topped

variable {env : Env} {process next : Process}

theorem restoreBlocks {target : Nat} {blocks : List (Nat × ReorgHistoryBlock)} {db : DB}
    (descending : (blocks.map Prod.fst).Pairwise (· > ·))
    (topped : ∀ top ∈ blocks.head?, ∀ last, db.lastBlock = some last →
      env.startHeight ≤ last + 1 → top.1 ≤ last) :
    ∀ top ∈ (ReorgCache.restoreBlocks target blocks db).1.head?, ∀ last,
      (ReorgCache.restoreBlocks target blocks db).2.lastBlock = some last →
      env.startHeight ≤ last + 1 → top.1 ≤ last := by
  induction blocks generalizing db with
  | nil => exact topped
  | cons entry lower ih =>
      rw [ReorgCache.restoreBlocks]
      split
      · simp only [List.map_cons, List.pairwise_cons] at descending
        refine ih descending.2 ?_
        intro top head last marked _
        rw [undo_lastBlock] at marked
        cases marked
        have lowerHeight := descending.1 top.1 (List.mem_map_of_mem (List.mem_of_mem_head? head))
        omega
      · exact topped

theorem step (topped : Topped env process) {event : Event}
    (below : ∀ height new handleReorgs, event = .block height new handleReorgs →
      ∀ top ∈ process.reorgCache.blocks.head?, top.1 < height)
    (stepped : process.step env event = .ok next) : Topped env next := by
  cases event with
  | block height new handleReorgs =>
      have lower := below height new handleReorgs rfl
      obtain ⟨handled, handling, server, _, _, cached⟩ := step_block stepped lower
      have marked := lastBlock_handled (handleBlock_handled handling) process.db
      cases handleReorgs with
      | false =>
          simp only [Bool.false_eq_true, if_false] at cached
          exact {
            descending := by rw [cached]; exact List.Pairwise.nil
            topped := by
              rw [cached]
              intro _ impossible
              cases impossible }
      | true =>
          simp only [if_true] at cached
          refine { descending := ?_, topped := ?_ }
          · have sub : process.reorgCache.kept <+: process.reorgCache.blocks := by
              unfold ReorgCache.kept
              split
              · exact List.dropLast_prefix _
              · exact List.prefix_refl _
            rw [cached, List.map_cons, List.pairwise_cons]
            refine ⟨?_, topped.descending.sublist (sub.sublist.map _)⟩
            intro other listed
            have member := (sub.sublist.map Prod.fst).subset listed
            have descending := topped.descending
            cases shape : process.reorgCache.blocks with
            | nil => simp [shape] at member
            | cons first rest =>
                have head := lower first (by simp [shape])
                rw [shape, List.map_cons] at member descending
                rcases List.mem_cons.mp member with rfl | deeper
                · exact head
                · have order := (List.pairwise_cons.mp descending).1 other deeper
                  exact Nat.lt_trans order head
          · intro top head last found begun
            rw [cached, List.head?_cons, Option.mem_def, Option.some.injEq] at head
            subst head
            rw [Process.db, server] at found
            dsimp only at found
            rw [marked] at found
            split at found
            · omega
            · cases found
              exact Nat.le_refl _
  | restore target =>
      cases stepped
      exact {
        descending := topped.descending.sublist
          ((ReorgCache.restoreBlocks_suffix target _ _).sublist.map _)
        topped := restoreBlocks topped.descending topped.topped }
  | restart =>
      cases stepped
      exact {
        descending := List.Pairwise.nil
        topped := fun _ impossible => by cases impossible }

end Topped

theorem reachable_topped {env : Env} {allowed : Process → Event → Prop} {process : Process}
    (reached : Reachable env allowed process) : Topped env process := by
  induction reached with
  | start =>
      exact {
        descending := List.Pairwise.nil
        topped := fun _ impossible => by cases impossible }
  | @step process next event reached valid permitted stepped ih =>
      have sound := reachable_sound always_ofLedger trivial
        (fun _ _ _ _ _ _ _ _ _ => trivial) reached
      refine ih.step ?_ stepped
      rintro height new handleReorgs rfl
      exact sound.below valid.1

/-- A restore to the last block before a run of at most as many blocks as are cached brings
the ledger and the last block back. -/
theorem restore_exact {env : Env} {allowed : Process → Event → Prop} {process final : Process}
    {height : Nat} {blocks : List Block} (reached : Reachable env allowed process)
    (last : process.db.lastBlock = some height) (begun : env.startHeight ≤ height + 1)
    (short : blocks.length ≤ reorgCacheMaxLen)
    (written : Written env process height blocks final) :
    SameLedger (final.reorgCache.restore final.db height).2 process.db ∧
      (final.reorgCache.restore final.db height).2.lastBlock = process.db.lastBlock := by
  have sound := reachable_sound always_ofLedger trivial
    (fun _ _ _ _ _ _ _ _ _ => trivial) reached
  have topped := reachable_topped reached
  obtain ⟨entries, undoing⟩ := written_undoing written sound short
  have lower : ∀ top ∈ (process.reorgCache.blocks.take (reorgCacheMaxLen - blocks.length)).head?,
      top.1 ≤ height := by
    intro top head
    rw [List.head?_take] at head
    split at head
    · cases head
    · exact topped.topped top head height last begun
  have restored : (final.reorgCache.restore final.db height).2 = undoAll entries final.db := by
    rw [ReorgCache.restore, undoing.blocks, ReorgCache.restoreBlocks_append undoing.above,
      ReorgCache.restoreBlocks_below lower]
  rw [restored, last]
  refine ⟨undoing.ledger, ?_⟩
  cases written with
  | nil =>
      rw [List.length_eq_zero_iff.mp undoing.length]
      exact last
  | cons =>
      apply undoing.lastBlock
      apply List.ne_nil_of_length_pos
      rw [undoing.length]
      exact Nat.succ_pos _

theorem wojak_restored :
    ∃ process final, Reachable Sample.env (fun _ _ => True) process ∧
      Written Sample.env process 1 [Sample.inscribeWojak] final ∧
      final.db.tokenToMeta.keys.card = 1 ∧
      SameLedger (final.reorgCache.restore final.db 1).2 process.db := by
  obtain ⟨process, reached, last, steps⟩ : ∃ process,
      Reachable Sample.env (fun _ _ => True) process ∧ process.db.lastBlock = some 1 ∧
      (process.checkedStep Sample.env (fun _ _ => True) (.block 2 Sample.inscribeWojak true)).any
        (fun next => decide (next.db.tokenToMeta.keys.card = 1)) = true :=
    replay_any [.block 1 Sample.payWojak true] (by decide +kernel)
  obtain ⟨final, checked, deployed⟩ := (Option.any_eq_true _ _).mp steps
  obtain ⟨valid, _, stepped⟩ := checkedStep_some checked
  have written : Written Sample.env process 1 [Sample.inscribeWojak] final :=
    .cons valid stepped .nil
  exact ⟨process, final, reached, written, of_decide_eq_true deployed,
    (restore_exact reached last (by decide) (by decide) written).1⟩

end WjkIndexer
