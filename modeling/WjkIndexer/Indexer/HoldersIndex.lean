import WjkIndexer.Indexer.Replay
import WjkIndexer.Indexer.Totals
import WjkIndexer.Tokens.Matched

/-!
The index of holders over whole runs: blocks keep it in step with the stored accounts, and
so do restores of blocks that left every account's total as it was.
-/

namespace WjkIndexer

open FiniteTable TokenCache

/-- Whoever is sent a transfer of the same block has nothing stored for its token or is named for it
in the block, and what the entries of the undone heights credited to an account is what they debited
from it. -/
def TotalsSafe (env : Env) (process : Process) : Event → Prop
  | .block height block _ => ∀ parsed,
      Parser.parseBlock env process.db height block (spentPrevouts env process.db block)
        (loadedCache env process.db block) = .ok parsed →
      CreditsNamed env process.db parsed.cache
  | .restore target => ∀ account,
      ((process.reorgCache.undoneHeights target).map
          (process.db.movedAt (creditedBy env) account)).sum =
        ((process.reorgCache.undoneHeights target).map (process.db.movedAt debitedBy account)).sum
  | .restart => True

/-- Only the accounts that have entries are moved. -/
theorem moved_listed_iff (env : Env) (db : DB) (heights : List Nat) :
    (∀ key ∈ db.addressTokenToHistory.keys,
      (heights.map (db.movedAt (creditedBy env) key.account)).sum =
        (heights.map (db.movedAt debitedBy key.account)).sum) ↔
    ∀ account, (heights.map (db.movedAt (creditedBy env) account)).sum =
      (heights.map (db.movedAt debitedBy account)).sum := by
  constructor
  · intro checked account
    by_cases listed : ∃ key ∈ db.addressTokenToHistory.keys, key.account = account
    · obtain ⟨key, member, rfl⟩ := listed
      exact checked key member
    · have unmoved : ∀ amount, (heights.map (db.movedAt amount account)).sum = 0 := by
        intro amount
        refine List.sum_eq_zero ?_
        intro sum member
        obtain ⟨height, _, rfl⟩ := List.mem_map.mp member
        refine Table.total_eq_zero ?_
        intro key value stored
        rw [if_neg]
        rintro ⟨own, _⟩
        exact listed ⟨key, Table.mem_keys_iff.mpr ⟨value, stored⟩, own⟩
      rw [unmoved, unmoved]
  · exact fun same key _ => same key.account

instance (env : Env) (process : Process) (event : Event) :
    Decidable (TotalsSafe env process event) :=
  match event with
  | .block height block _ => inferInstanceAs (Decidable (∀ parsed,
      Parser.parseBlock env process.db height block (spentPrevouts env process.db block)
        (loadedCache env process.db block) = .ok parsed →
      CreditsNamed env process.db parsed.cache))
  | .restore target => decidable_of_iff _
      (moved_listed_iff env process.db (process.reorgCache.undoneHeights target))
  | .restart => inferInstanceAs (Decidable True)

variable {env : Env} {process next : Process} {height : Nat} {block : Block} {handled : Handled}

def PositiveFiled (env : Env) (db : DB) (_ : Chain) : Prop :=
  (∀ key proto, db.addressLocationToTransfer.get key = some proto → proto.amt ≠ 0) ∧
    WellFiled env db.tokenToMeta db.addressTokenToBalance

theorem positive_ofLedger : OfLedger (PositiveFiled env) := by
  rintro left right chain same ⟨positive, filed⟩
  refine ⟨?_, filed_ofLedger left right chain same filed⟩
  rw [← same.addressLocationToTransfer]
  exact positive

theorem matched_handled {handleReorgs : Bool} (sound : Sound (PositiveFiled env) process)
    (valid : (Event.block height block handleReorgs).Valid env process)
    (safe : TotalsSafe env process (.block height block handleReorgs))
    (result : HandledBlock env process.server height block handled) :
    PositiveFiled env (applyAll handled.processed process.db) ((height, block) :: process.chain) ∧
      (process.server.holders.Matched process.db.addressTokenToBalance →
        handled.holders.Matched (applyAll handled.processed process.db).addressTokenToBalance) := by
  obtain ⟨positive, filed⟩ := sound.holds
  have fresh : ∀ txid ∈ block.txids, txid ∉ process.chain.txids :=
    fun txid own => valid.2.txids_disjoint own
  have filedNow := filed_handled result filed sound.placed fresh
  cases tokens_handled result with
  | kept tokens accounts transfers holders =>
      refine ⟨⟨?_, filedNow⟩, ?_⟩
      · intro key proto stored
        exact positive key proto (transfers ▸ stored)
      · intro matched
        rw [holders]
        exact accounts.symm ▸ matched
  | @processed parsed done parsing processing tokens accounts transfers holders =>
      have fed := (parseBlock_spec parsing).feed.fed rfl
      have preloadable := preloadable_parsed parsing filed sound.placed fresh
      have loaded : PositiveTransfers parsed.cache.validTransfers := by
        intro location sender data found
        rw [fed.validTransfers] at found
        exact positive _ _ (loaded_stored found)
      refine ⟨⟨?_, filedNow⟩, ?_⟩
      · intro key proto stored
        change (applyAll handled.processed process.server.db).addressLocationToTransfer.get key = _
          at stored
        rw [transfers, Table.get_extend, Option.or_eq_some_iff] at stored
        rcases stored with new | ⟨_, old⟩
        · obtain ⟨record, found⟩ := mem_transfersToWrite.mp (Table.mem_keys_iff.mpr ⟨proto, new⟩)
          rw [get_transfersToWrite, found, Option.bind_some, if_pos rfl, Option.some.injEq] at new
          subst new
          exact processTokenActions_positive preloadable fed loaded processing _ _ _ found
        · rw [Table.get_removeBatch] at old
          split at old
          · cases old
          · exact positive key proto old
      · intro matched
        have credits := (safe _ parsing).loaded preloadable fed
        rw [holders]
        exact accounts.symm ▸
          (processTokenActions_matched preloadable fed credits.mono matched loaded processing)

theorem totalsSafe_known (process : Process) (height : Nat) (new : Block) (handleReorgs : Bool)
    (reached : Reachable env (TotalsSafe env) process)
    (valid : (Event.block height new handleReorgs).Valid env process)
    (safe : TotalsSafe env process (.block height new handleReorgs)) :
    CreditsKnown env process.server height new := by
  intro parsed parsing
  have parses := Machine.toOption_some.mp parsing
  have sound := reachable_filed reached
  have preloadable := preloadable_parsed parses sound.holds sound.placed
    (fun txid own => valid.2.txids_disjoint own)
  exact (safe parsed parses).loaded preloadable ((parseBlock_spec parses).feed.fed rfl)

theorem reachable_matched (reached : Reachable env (TotalsSafe env) process) :
    process.server.holders.Matched process.db.addressTokenToBalance := by
  have sound : ∀ {process}, Reachable env (TotalsSafe env) process →
      Sound (PositiveFiled env) process := by
    intro process reached
    refine reachable_sound positive_ofLedger ⟨(fun _ _ found => nomatch found), filed_empty⟩ ?_
      reached
    intro process height new handleReorgs handled sound valid safe handling
    exact (matched_handled sound valid safe (handleBlock_handled handling)).1
  induction reached with
  | start => exact fun tick => ⟨rfl, rfl⟩
  | @step process next event reached valid safe stepped ih =>
      cases event with
      | block height new handleReorgs =>
          obtain ⟨handled, handling, server, _⟩ :=
            step_block stepped ((sound reached).below valid.1)
          have kept := (matched_handled (sound reached) valid safe
            (handleBlock_handled handling)).2 ih
          rw [Process.db, server]
          exact kept
      | restore target =>
          cases stepped
          refine ih.congr ?_
          intro account
          have changed := (reachable_netted totalsSafe_known reached).restored target account
          have moved := safe account
          rw [moved] at changed
          exact Nat.add_right_cancel changed
      | restart =>
          cases stepped
          exact Holders.init_matched _

/-- In every run of safe events the index of holders is at every state the one that would be
built from the stored accounts, and its counters count its entries. -/
theorem holders_matched (reached : Reachable env (TotalsSafe env) process)
    (tick : OriginalTokenTick) :
    process.server.holders.entries tick =
        (Holders.init process.db.addressTokenToBalance).entries tick ∧
      process.server.holders.count tick = (process.server.holders.entries tick).card := by
  rw [Holders.entries_init]
  exact reachable_matched reached tick

namespace Sample

/-- The transfer is moved back to its sender. -/
def returnWojak : Block :=
  Sample.block 103 [coinbase 4 [pay sender 50], {
    hash := 5
    inputs := [spend 3 0 []]
    outputs := [pay sender 50] }]

end Sample

theorem wojak_matched :
    ∃ process next, Reachable Sample.env (TotalsSafe Sample.env) process ∧
      process.reorgCache.undoneHeights 2 = [3] ∧
      process.db.movedAt debitedBy
        ⟨Sample.env.computeScriptHash Sample.sender, Sample.wojak⟩ 3 = 10 ^ 18 ∧
      process.step Sample.env (.restore 2) = .ok next ∧
      (next.server.holders.entries Sample.wojak).card = 1 ∧
      next.server.holders.entries Sample.wojak =
        (Holders.init next.db.addressTokenToBalance).entries Sample.wojak := by
  obtain ⟨process, reached, undone, moved, valid, safe, some⟩ : ∃ process,
      Reachable Sample.env (TotalsSafe Sample.env) process ∧
      process.reorgCache.undoneHeights 2 = [3] ∧
      process.db.movedAt debitedBy
        ⟨Sample.env.computeScriptHash Sample.sender, Sample.wojak⟩ 3 = 10 ^ 18 ∧
      (Event.restore 2).Valid Sample.env process ∧ TotalsSafe Sample.env process (.restore 2) ∧
      (process.step Sample.env (.restore 2)).toOption.any (fun next =>
        decide ((next.server.holders.entries Sample.wojak).card = 1)) = true :=
    replay_any (Sample.lockWojak ++ [.block 3 Sample.returnWojak true]) (by decide +kernel)
  obtain ⟨next, stepped, one⟩ := (Option.any_eq_true _ _).mp some
  have result := Machine.toOption_some.mp stepped
  exact ⟨process, next, reached, undone, moved, result, of_decide_eq_true one,
    (holders_matched (.step reached valid safe result) Sample.wojak).1⟩

/-- After a restore the index still has the holder of a token that is undone. -/
theorem wojak_unmatched :
    ∃ process, Reachable Sample.env (fun _ _ => True) process ∧
      process.server.holders.entries Sample.wojak ≠
        (Holders.init process.db.addressTokenToBalance).entries Sample.wojak :=
  replay_any (Sample.lockWojak ++ [.restore 1]) (by decide +kernel)

end WjkIndexer
