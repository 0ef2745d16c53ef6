import WjkIndexer.Indexer.HistoryIds
import WjkIndexer.Indexer.Loop
import WjkIndexer.Reorg.Visible

/-!
The heights of the applied blocks in the tables: the block infos are those of the applied blocks,
and the history is divided among them.
-/

namespace WjkIndexer

open FiniteTable

theorem Chain.Linked.below {chain : Chain} (linked : chain.Linked) {height : Nat}
    (follows : chain.Follows height) {entry : Nat × Block} (listed : entry ∈ chain) :
    entry.1 < height := by
  obtain ⟨place, found⟩ := List.mem_iff_getElem?.mp listed
  cases shape : chain with
  | nil =>
      rw [shape] at listed
      cases listed
  | cons top rest =>
      have head : chain.head? = some top := by rw [shape]; rfl
      have order := linked.height head found
      have above := follows top head
      omega

/-- What the tables know of the heights: the infos are those of the applied blocks, and the events
of a height are the entries of the history that carry it, in the order of their ids. -/
structure ByHeight (env : Env) (db : DB) (chain : Chain) : Prop extends GapFree db where
  linked : chain.Linked
  infos : ∀ height info, db.blockInfo.get height = some info ↔
    env.startHeight ≤ height ∧ ∃ block, (height, block) ∈ chain ∧ blockInfoOf block = info
  applied : ∀ key value, db.addressTokenToHistory.get key = some value →
    env.startHeight ≤ value.height ∧ ∃ block, (value.height, block) ∈ chain
  events : ∀ height key, key ∈ (db.blockEvents.get height).getD [] ↔
    ∃ value, db.addressTokenToHistory.get key = some value ∧ value.height = height
  ascending : ∀ height, ((db.blockEvents.get height).getD []).Pairwise
    fun earlier later => earlier.id < later.id

theorem byHeight_ofLedger {env : Env} : OfLedger (ByHeight env) := by
  intro left right chain same known
  refine {
    toGapFree := gapFree_ofLedger left right chain same known.toGapFree
    linked := known.linked
    infos := ?_
    applied := ?_
    events := ?_
    ascending := ?_ }
  · rw [← same.blockInfo]
    exact known.infos
  · rw [← same.addressTokenToHistory]
    exact known.applied
  · rw [← same.addressTokenToHistory, ← same.blockEvents]
    exact known.events
  · rw [← same.blockEvents]
    exact known.ascending

section Block

variable {env : Env} {server : Server} {height : Nat} {block : Block} {chain : Chain}
  {handled : Handled}

theorem ByHeight.infos_below {db : DB} (known : ByHeight env db chain)
    (follows : chain.Follows height) {place : Nat} (member : place ∈ db.blockInfo.keys) :
    place < height := by
  obtain ⟨info, found⟩ := Table.mem_keys_iff.mp member
  obtain ⟨_, other, applied, _⟩ := (known.infos place info).mp found
  exact known.linked.below follows applied

theorem infos_handled (result : HandledBlock env server height block handled) :
    (applyAll handled.processed server.db).blockInfo =
      if height < env.startHeight then server.db.blockInfo
      else server.db.blockInfo.set height (blockInfoOf block) := by
  cases result with
  | early before => rw [if_pos before]; rfl
  | empty begun | full begun => rw [if_neg (Nat.not_lt.mpr begun)]; rfl

theorem infos_grown (known : ByHeight env server.db chain) (follows : chain.Follows height)
    (result : HandledBlock env server height block handled) (place : Nat) (info : BlockInfo) :
    (applyAll handled.processed server.db).blockInfo.get place = some info ↔
      env.startHeight ≤ place ∧
        ∃ other, (place, other) ∈ (height, block) :: chain ∧ blockInfoOf other = info := by
  have below : ∀ other, (place, other) ∈ chain → place < height :=
    fun other listed => known.linked.below follows listed
  rw [infos_handled result]
  simp only [List.mem_cons, Prod.mk.injEq]
  by_cases own : place = height
  · subst own
    have unlisted : ∀ other, (place, other) ∉ chain :=
      fun other listed => absurd (below other listed) (Nat.lt_irrefl _)
    split
    · rename_i early
      rw [known.infos]
      constructor
      · rintro ⟨_, other, listed, _⟩
        exact absurd listed (unlisted other)
      · rintro ⟨begun, _⟩
        omega
    · rename_i begun
      rw [Table.get_set_self, Option.some.injEq]
      constructor
      · intro same
        exact ⟨Nat.le_of_not_lt begun, block, Or.inl ⟨rfl, rfl⟩, same⟩
      · rintro ⟨_, other, ⟨_, rfl⟩ | listed, same⟩
        · exact same
        · exact absurd listed (unlisted other)
  · have kept : (if height < env.startHeight then server.db.blockInfo
        else server.db.blockInfo.set height (blockInfoOf block)).get place =
        server.db.blockInfo.get place := by
      split
      · rfl
      · exact Table.get_set_ne _ _ own
    rw [kept, known.infos]
    simp [own]

theorem history_grown (numbered : GapFree server.db)
    (result : HandledBlock env server height block handled) (key : AddressTokenIdDB)
    (value : HistoryValue) :
    (applyAll handled.processed server.db).addressTokenToHistory.get key = some value ↔
      (key, value) ∈ historyEntries height (server.db.lastHistoryId.getD 0)
        (historyOf env server height block) ∨
      server.db.addressTokenToHistory.get key = some value := by
  cases history_handled result with
  | kept none history _ _ _ =>
      rw [history, none]
      simp [historyEntries]
  | @written entries events history _ _ _ =>
      have fresh := entries_fresh numbered events
      have distinct : (entries.map Prod.fst).Nodup :=
        List.Nodup.of_map _ ((entries_next events).nodup_iff.mpr List.nodup_range')
      rw [history, ← events]
      by_cases new : key ∈ entries.map Prod.fst
      · have absent : server.db.addressTokenToHistory.get key = none :=
          Table.get_eq_none_iff.mpr fun stored => fresh key stored new
        rw [absent]
        constructor
        · exact fun written => Or.inl (Table.mem_of_get_extendList new written)
        · rintro (listed | impossible)
          · exact Table.get_extendList_listed distinct listed _
          · cases impossible
      · rw [Table.get_extendList_of_notMem new]
        constructor
        · exact Or.inr
        · rintro (listed | stored)
          · exact absurd (List.mem_map_of_mem listed) new
          · exact stored

theorem byHeight_handled (known : ByHeight env server.db chain) (follows : chain.Follows height)
    (result : HandledBlock env server height block handled) :
    ByHeight env (applyAll handled.processed server.db) ((height, block) :: chain) := by
  have grown := history_grown known.toGapFree result
  have lower : ∀ key value, server.db.addressTokenToHistory.get key = some value →
      value.height < height := by
    intro key value stored
    obtain ⟨_, other, listed⟩ := known.applied key value stored
    exact known.linked.below follows listed
  refine {
    toGapFree := gapFree_handled result known.toGapFree
    linked := known.linked.cons follows block
    infos := infos_grown known follows result
    applied := ?_
    events := ?_
    ascending := ?_ }
  · intro key value present
    rcases (grown key value).mp present with listed | stored
    · rw [historyEntries_height listed]
      refine ⟨?_, block, List.mem_cons_self⟩
      by_contra early
      rw [historyOf, if_pos (Or.inl (Nat.lt_of_not_le early))] at listed
      cases listed
    · obtain ⟨begun, other, listed⟩ := known.applied key value stored
      exact ⟨begun, other, List.mem_cons_of_mem _ listed⟩
  · intro place key
    simp only [grown]
    cases history_handled result with
    | kept none _ _ blocks _ =>
        rw [blocks, none, known.events]
        simp [historyEntries]
    | @written entries events _ _ blocks _ =>
        rw [blocks, ← events, Table.get_set]
        by_cases here : place = height
        · subst here
          rw [if_pos rfl, Option.getD_some, mem_sortedById, List.mem_map]
          constructor
          · rintro ⟨⟨key, value⟩, listed, rfl⟩
            exact ⟨value, Or.inl listed, historyEntries_height (events ▸ listed)⟩
          · rintro ⟨value, listed | stored, same⟩
            · exact ⟨(key, value), listed, rfl⟩
            · have under := lower key value stored
              omega
        · rw [if_neg here, known.events]
          constructor
          · rintro ⟨value, stored, same⟩
            exact ⟨value, Or.inr stored, same⟩
          · rintro ⟨value, listed | stored, same⟩
            · have own : value.height = height := historyEntries_height (events ▸ listed)
              exact absurd (same.symm.trans own) here
            · exact ⟨value, stored, same⟩
  · intro place
    cases history_handled result with
    | kept _ _ _ blocks _ =>
        rw [blocks]
        exact known.ascending place
    | written events _ _ blocks _ =>
        rw [blocks, Table.get_set]
        split
        · rw [Option.getD_some, ← @List.pairwise_map _ _ AddressTokenIdDB.id (· < ·),
            sortedById_ids (entries_next events)]
          exact List.pairwise_lt_range'
        · exact known.ascending place

end Block

theorem byHeight_empty (env : Env) : ByHeight env {} [] where
  toGapFree := gapFree_empty
  linked := List.isChain_nil
  infos height info := by simp
  applied key value found := by simp at found
  events height key := by simp
  ascending height := by simp

theorem reachable_byHeight {env : Env} {allowed : Process → Event → Prop} {process : Process}
    (reached : Reachable env allowed process) : Sound (ByHeight env) process := by
  refine reachable_sound byHeight_ofLedger (byHeight_empty env) ?_ reached
  intro process height new handleReorgs handled sound valid _ handling
  exact byHeight_handled sound.holds valid.1 (handleBlock_handled handling)

theorem reachable_proofs {env : Env} {allowed : Process → Event → Prop} {process : Process}
    (reached : Reachable env allowed process) {entry : Nat × Block}
    (applied : entry ∈ process.chain) (begun : env.startHeight ≤ entry.1) :
    ∃ proof, process.db.proofOfHistory.get entry.1 = some proof := by
  induction reached with
  | start => cases applied
  | @step process next event reached valid _ stepped ih =>
      cases event with
      | block height new handleReorgs =>
          have sound := reachable_byHeight reached
          obtain ⟨handled, handling, server, chain, _⟩ := step_block stepped (sound.below valid.1)
          have result := handleBlock_handled handling
          rw [Process.db, server]
          rw [chain, List.mem_cons] at applied
          by_cases early : height < env.startHeight
          · rcases applied with rfl | old
            · exact absurd begun (Nat.not_le.mpr early)
            · have under := sound.holds.linked.below valid.1 old
              omega
          · obtain ⟨proof, written⟩ := proofs_handled result (Nat.le_of_not_lt early)
            rw [show process.db = process.server.db from rfl, written, Table.get_set]
            rcases applied with rfl | old
            · exact ⟨proof, if_pos rfl⟩
            · have under := sound.holds.linked.below valid.1 old
              rw [if_neg (Nat.ne_of_lt under)]
              exact ih old
      | restore target =>
          have restored := Except.ok.inj stepped
          subst restored
          have kept := restoreBlocks_proofs target process.reorgCache.blocks process.db
          obtain ⟨proof, stored⟩ := ih (List.mem_of_mem_drop applied)
          exact ⟨proof, (congrArg (Table.get · entry.1) kept).trans stored⟩
      | restart =>
          have restarted := Except.ok.inj stepped
          subst restarted
          exact ih applied

theorem reachable_lastBlock {env : Env} {allowed : Process → Event → Prop} {process : Process}
    (reached : Reachable env allowed process) {top : Nat × Block}
    (head : process.chain.head? = some top) (begun : env.startHeight ≤ top.1) :
    process.db.lastBlock = some top.1 := by
  induction reached generalizing top with
  | start => cases head
  | @step process next event reached valid _ stepped ih =>
      have sound := reachable_byHeight reached
      cases event with
      | block height new handleReorgs =>
          obtain ⟨handled, handling, server, chain, _⟩ := step_block stepped (sound.below valid.1)
          rw [chain, List.head?_cons, Option.some.injEq] at head
          subst head
          rw [Process.db, server]
          cases handleBlock_handled handling with
          | early before => exact absurd before (Nat.not_lt.mpr begun)
          | empty | full => rfl
      | restore target =>
          obtain ⟨count, fits, result, _⟩ := ReorgCache.restoreBlocks_count target
            process.reorgCache.blocks process.db
          have restored := Except.ok.inj stepped
          simp only [result] at restored
          subst restored
          have popped : process.reorgCache.blocks.length -
              (process.reorgCache.blocks.drop count).length = count := by
            rw [List.length_drop]
            omega
          dsimp only at head
          rw [popped] at head
          cases count with
          | zero => exact ih head begun
          | succ place =>
              have found := List.getElem?_eq_getElem (Nat.lt_of_succ_le fits)
              obtain ⟨block, applied⟩ := sound.restorable.heights found
              rw [List.head?_drop] at head
              cases first : process.chain.head? with
              | none =>
                  rw [List.head?_eq_none_iff.mp first] at head
                  cases head
              | some peak =>
                  have upper := sound.holds.linked.height first applied
                  have lower := sound.holds.linked.height first head
                  rw [Process.db, undoAll_lastBlock found]
                  dsimp only at upper
                  congr 1
                  omega
      | restart =>
          have restarted := Except.ok.inj stepped
          subst restarted
          exact ih head begun

end WjkIndexer
