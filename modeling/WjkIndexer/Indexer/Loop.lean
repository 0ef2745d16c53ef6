import WjkIndexer.Blk.Producer
import WjkIndexer.Library.Reaches
import WjkIndexer.Reorg.Exact

/-!
The loop over the events of the producer: which blocks are cached for reorgs, how a reorg is
restored from the cache, and when the block of an event is refused.
-/

namespace WjkIndexer

open FiniteTable Machine Blk

def subU64 (left right : Nat) : Nat := (left + 2 ^ 64 - right) % 2 ^ 64

def asU32 (number : Nat) : Nat := number % 2 ^ 32

def handlesReorgs (event : BlockEvent) : Bool :=
  decide (subU64 event.tip reorgCacheMaxLen < event.id.height)

inductive LoopError where
  -- `Wrong reorg cache tip height. Expected {}, got {}`
  | wrongCacheTip (expected got : Nat)
  | handle (error : HandleError)
  deriving DecidableEq, Repr

structure Loop where
  process : Process := {}
  prevHeight : Option Nat := none
  before : List DB := []

namespace Loop

def clear (loop : Loop) : Loop :=
  { loop with process := { loop.process with
      reorgCache := { loop.process.reorgCache with blocks := [] } } }

def restore (loop : Loop) (height : Nat) : Loop :=
  let (reorgCache, db) := loop.process.reorgCache.restore loop.process.db height
  let undone := loop.process.reorgCache.blocks.length - reorgCache.blocks.length
  { loop with
    process := {
      server := { loop.process.server with db }
      reorgCache
      chain := loop.process.chain.drop undone }
    before := loop.before.drop undone }

def rollBack (loop : Loop) (event : BlockEvent) : Loop :=
  let loop := if handlesReorgs event then loop else loop.clear
  if 0 < event.reorgLen then
    loop.restore (asU32 (loop.prevHeight.getD 0 - event.reorgLen))
  else loop

def prepare (loop : Loop) (event : BlockEvent) : Except LoopError Loop :=
  let loop := loop.rollBack event
  match loop.process.reorgCache.lastHeight with
  | none => .ok loop
  | some last =>
      if asU32 (last + 1) ≠ asU32 event.id.height then
        .error (.wrongCacheTip (asU32 (last + 1)) (asU32 event.id.height))
      else .ok loop

def handleEvent (env : Env) (loop : Loop) (event : BlockEvent) : Except LoopError Loop :=
  match loop.process.step env
      (.block (asU32 event.id.height) event.block (handlesReorgs event)) with
  | .error error => .error (.handle error)
  | .ok process => .ok {
      process
      prevHeight := some event.id.height
      before := loop.process.db :: loop.before }

def restart (loop : Loop) : Loop where
  process := {
    server := { db := loop.process.db, holders := Holders.init loop.process.db.addressTokenToBalance }
    reorgCache := {}
    chain := loop.process.chain }
  before := loop.before

end Loop

inductive LoopInput where
  | event (event : BlockEvent)
  | kill
  | stop
  deriving DecidableEq, Repr

namespace Loop

def step (env : Env) (loop : Loop) : LoopInput → Except LoopError Loop
  | .event event => do
      let prepared ← loop.prepare event
      prepared.handleEvent env event
  | .kill => .ok loop.restart
  | .stop => .ok (loop.restore 0).restart

def previous (loop : Loop) : Option Nat :=
  (loop.process.chain.head?.map Prod.fst).or loop.process.db.lastBlock

/-- An event that goes on from the previous height, with a block that is valid on the blocks that
it does not abandon. -/
structure Delivered (env : Env) (loop : Loop) (event : BlockEvent) : Prop where
  follows : ∀ previous ∈ loop.previous, event.id.height + event.reorgLen = previous + 1
  short : event.reorgLen ≤ reorgCacheMaxLen
  tip : event.id.height ≤ event.tip
  valid : ValidBlock env (Chain.utxo (loop.process.chain.drop event.reorgLen))
    (Chain.txids (loop.process.chain.drop event.reorgLen)) event.block

def Covered (loop : Loop) (event : BlockEvent) : Prop :=
  event.id.height < 2 ^ 32 ∧ (0 < event.reorgLen →
    handlesReorgs event = true ∧ event.reorgLen ≤ loop.process.reorgCache.blocks.length)

def UndoneOrRefused (loop : Loop) (event : BlockEvent) : Prop :=
  ∀ prepared, loop.prepare event = .ok prepared →
    (∃ last, prepared.process.db.lastBlock = some last ∧ last + 1 = event.id.height) ∧
      prepared.process.chain = loop.process.chain.drop event.reorgLen ∧
      ∃ before ∈ loop.before[event.reorgLen - 1]?, SameLedger prepared.process.db before

def Permitted (env : Env) (allowed : Loop → BlockEvent → Prop) (loop : Loop) : LoopInput → Prop
  | .event event => Delivered env loop event ∧ allowed loop event
  | _ => True

end Loop

def UndoesTo : List (Nat × ReorgHistoryBlock) → DB → List DB → Prop
  | [], _, _ => True
  | (height, entries) :: lower, db, stored =>
      ∃ before rest, stored = before :: rest ∧ SameLedger (entries.undo height db) before ∧
        UndoesTo lower (entries.undo height db) rest

namespace UndoesTo

variable {blocks : List (Nat × ReorgHistoryBlock)} {left right db : DB} {stored : List DB}

theorem congr (same : SameLedger left right) (undoes : UndoesTo blocks left stored) :
    UndoesTo blocks right stored := by
  induction blocks generalizing left right stored with
  | nil => trivial
  | cons entry lower ih =>
      obtain ⟨before, rest, shape, back, deeper⟩ := undoes
      have undone := same.undo entry.2 entry.1
      exact ⟨before, rest, shape, undone.symm.trans back, ih undone deeper⟩

theorem take (undoes : UndoesTo blocks db stored) (count : Nat) :
    UndoesTo (blocks.take count) db stored := by
  induction blocks generalizing db stored count with
  | nil =>
      rw [List.take_nil]
      trivial
  | cons entry lower ih =>
      cases count with
      | zero => trivial
      | succ count =>
          obtain ⟨before, rest, shape, back, deeper⟩ := undoes
          exact ⟨before, rest, shape, back, ih deeper count⟩

theorem drop (undoes : UndoesTo blocks db stored) (count : Nat) :
    UndoesTo (blocks.drop count) (undoAll (blocks.take count) db) (stored.drop count) := by
  induction blocks generalizing db stored count with
  | nil =>
      rw [List.drop_nil]
      trivial
  | cons entry lower ih =>
      cases count with
      | zero => exact undoes
      | succ count =>
          obtain ⟨before, rest, rfl, back, deeper⟩ := undoes
          exact ih deeper count

theorem undone (undoes : UndoesTo blocks db stored) {count : Nat} (some : count < blocks.length) :
    ∃ before ∈ stored[count]?, SameLedger (undoAll (blocks.take (count + 1)) db) before := by
  induction blocks generalizing db stored count with
  | nil => cases some
  | cons entry lower ih =>
      obtain ⟨before, rest, rfl, back, deeper⟩ := undoes
      cases count with
      | zero => exact ⟨before, rfl, back⟩
      | succ count => exact ih deeper (Nat.lt_of_succ_lt_succ some)

end UndoesTo

theorem undoAll_lastBlock {blocks : List (Nat × ReorgHistoryBlock)} {count : Nat}
    {entry : Nat × ReorgHistoryBlock} (place : blocks[count]? = some entry) (db : DB) :
    (undoAll (blocks.take (count + 1)) db).lastBlock = some (entry.1 - 1) := by
  rw [List.take_add_one, place, Option.toList_some, undoAll_append]
  exact undo_lastBlock _ _ _

theorem Restorable.heights {inv : DB → Chain → Prop} {blocks : List (Nat × ReorgHistoryBlock)}
    {db : DB} {chain : Chain} (restorable : Restorable inv blocks db chain) {place : Nat}
    {entry : Nat × ReorgHistoryBlock} (found : blocks[place]? = some entry) :
    ∃ block, chain[place]? = some (entry.1, block) := by
  induction blocks generalizing db chain place with
  | nil => cases found
  | cons first lower ih =>
      obtain ⟨block, rest, rfl, _, deeper⟩ := restorable
      cases place with
      | zero =>
          cases found
          exact ⟨block, rfl⟩
      | succ place => exact ih deeper found

theorem ReorgCache.restoreBlocks_count (target : Nat) (blocks : List (Nat × ReorgHistoryBlock))
    (db : DB) : ∃ count ≤ blocks.length,
      restoreBlocks target blocks db = (blocks.drop count, undoAll (blocks.take count) db) ∧
      (∀ place < count, ∀ entry ∈ blocks[place]?, target < entry.1) ∧
      ∀ entry ∈ blocks[count]?, entry.1 ≤ target := by
  induction blocks generalizing db with
  | nil => exact ⟨0, Nat.le_refl _, rfl, by omega, fun entry found => by cases found⟩
  | cons top lower ih =>
      rw [restoreBlocks]
      split
      · rename_i above
        obtain ⟨count, fits, result, undone, stopped⟩ := ih (top.2.undo top.1 db)
        refine ⟨count + 1, Nat.succ_le_succ fits, result, ?_, stopped⟩
        intro place lower entry found
        cases place with
        | zero =>
            cases found
            exact above
        | succ place => exact undone place (Nat.lt_of_succ_lt_succ lower) entry found
      · rename_i reached
        refine ⟨0, Nat.zero_le _, rfl, by omega, ?_⟩
        intro entry found
        cases found
        exact Nat.le_of_not_lt reached

namespace Loop

def undoing (loop : Loop) (count : Nat) : Loop :=
  { loop with
    process := {
      server := { loop.process.server with
        db := undoAll (loop.process.reorgCache.blocks.take count) loop.process.db }
      reorgCache := { loop.process.reorgCache with
        blocks := loop.process.reorgCache.blocks.drop count }
      chain := loop.process.chain.drop count }
    before := loop.before.drop count }

theorem restore_undoing (loop : Loop) (target : Nat) :
    ∃ count ≤ loop.process.reorgCache.blocks.length, loop.restore target = loop.undoing count ∧
      (∀ place < count, ∀ entry ∈ loop.process.reorgCache.blocks[place]?, target < entry.1) ∧
      ∀ entry ∈ loop.process.reorgCache.blocks[count]?, entry.1 ≤ target := by
  obtain ⟨count, fits, result, above, stopped⟩ := ReorgCache.restoreBlocks_count target
    loop.process.reorgCache.blocks loop.process.db
  refine ⟨count, fits, ?_, above, stopped⟩
  have popped : loop.process.reorgCache.blocks.length -
      (loop.process.reorgCache.blocks.drop count).length = count := by
    rw [List.length_drop]
    omega
  simp only [restore, ReorgCache.restore, result, popped, undoing]

theorem restore_empty {loop : Loop} (empty : loop.process.reorgCache.blocks = []) (target : Nat) :
    loop.restore target = loop := by
  obtain ⟨count, fits, result, _⟩ := loop.restore_undoing target
  rw [empty, List.length_nil, Nat.le_zero] at fits
  rw [result, fits]
  rfl

structure Backed (loop : Loop) : Prop where
  sound : Sound (fun _ chain => chain.Linked) loop.process
  undoes : UndoesTo loop.process.reorgCache.blocks loop.process.db loop.before

structure Aligned (loop : Loop) : Prop extends Backed loop where
  previous : ∀ height ∈ loop.prevHeight,
    height < 2 ^ 32 ∧ ∃ block, loop.process.chain.head? = some (height, block)
  idle : loop.prevHeight = none → loop.process.reorgCache.blocks = []

namespace Backed

variable {loop : Loop}

theorem clear (backed : Backed loop) : Backed loop.clear where
  sound := {
    holds := backed.sound.holds
    placed := backed.sound.placed
    restorable := trivial
    len := backed.sound.len
    short := Nat.zero_le _ }
  undoes := trivial

theorem restore (backed : Backed loop) (env : Env) (target : Nat) :
    Backed (loop.restore target) where
  sound := by
    have stepped : loop.process.step env (.restore target) = .ok (loop.restore target).process := rfl
    exact backed.sound.restore target stepped
  undoes := by
    obtain ⟨count, _, result, _⟩ := loop.restore_undoing target
    rw [result]
    exact backed.undoes.drop count

theorem rollBack (backed : Backed loop) (env : Env) (event : BlockEvent) :
    Backed (loop.rollBack event) := by
  have near : Backed (if handlesReorgs event then loop else loop.clear) := by
    split
    · exact backed
    · exact backed.clear
  by_cases reorg : 0 < event.reorgLen
  · simp only [Loop.rollBack, if_pos reorg]
    exact near.restore env _
  · simp only [Loop.rollBack, if_neg reorg]
    exact near

theorem restart (backed : Backed loop) : Aligned loop.restart where
  sound := {
    holds := backed.sound.holds
    placed := backed.sound.placed
    restorable := trivial
    len := rfl
    short := Nat.zero_le _ }
  undoes := trivial
  previous := fun _ impossible => by cases impossible
  idle := fun _ => rfl

theorem height (backed : Backed loop) {top : Nat × Block}
    (head : loop.process.chain.head? = some top) {place : Nat} {entry : Nat × ReorgHistoryBlock}
    (found : loop.process.reorgCache.blocks[place]? = some entry) : entry.1 + place = top.1 := by
  obtain ⟨block, applied⟩ := backed.sound.restorable.heights found
  exact backed.sound.holds.height head applied

theorem handleEvent {env : Env} {event : BlockEvent} {next : Loop} (backed : Backed loop)
    (fits : event.id.height < 2 ^ 32) (follows : loop.process.chain.Follows event.id.height)
    (valid : ValidBlock env loop.process.chain.utxo loop.process.chain.txids event.block)
    (result : loop.handleEvent env event = .ok next) : Aligned next := by
  have height : asU32 event.id.height = event.id.height := Nat.mod_eq_of_lt fits
  unfold Loop.handleEvent at result
  rw [height] at result
  cases stepped : loop.process.step env
      (.block event.id.height event.block (handlesReorgs event)) with
  | error fault =>
      rw [stepped] at result
      cases result
  | ok process =>
      rw [stepped] at result
      cases result
      have sound := backed.sound
      have linked := sound.holds.cons follows event.block
      obtain ⟨handled, handling, server, chain, _, blocks⟩ :=
        step_block stepped (sound.below follows)
      have undone := undo_handled (handleBlock_handled handling) sound.placed follows
        (fun txid own => valid.txids_disjoint own)
      refine {
        sound := sound.block (fun _ _ _ _ linked => linked) ⟨follows, valid⟩
          (fun _ _ => linked) stepped
        undoes := ?_
        previous := ?_
        idle := fun impossible => by cases impossible }
      · have db : process.db = applyAll handled.processed loop.process.db := by
          rw [Process.db, server]
        dsimp only
        rw [blocks, db]
        split
        · refine ⟨loop.process.db, loop.before, rfl, undone, ?_⟩
          rw [kept_eq_take sound.len sound.short]
          exact (backed.undoes.take _).congr undone.symm
        · trivial
      · rintro _ ⟨⟩
        exact ⟨fits, event.block, by rw [chain]; rfl⟩

end Backed

theorem prepare_ok {loop prepared : Loop} {event : BlockEvent}
    (result : loop.prepare event = .ok prepared) : prepared = loop.rollBack event ∧
      ∀ last ∈ (loop.rollBack event).process.reorgCache.lastHeight,
        asU32 (last + 1) = asU32 event.id.height := by
  unfold prepare at result
  cases top : (loop.rollBack event).process.reorgCache.lastHeight with
  | none =>
      simp only [top, Except.ok.injEq] at result
      exact ⟨result.symm, fun _ impossible => by cases impossible⟩
  | some last =>
      simp only [top] at result
      split at result
      · cases result
      · rename_i same
        cases result
        refine ⟨rfl, ?_⟩
        rintro _ ⟨⟩
        exact not_not.mp same

theorem prepare_empty {loop : Loop} {event : BlockEvent}
    (empty : (loop.rollBack event).process.reorgCache.blocks = []) :
    loop.prepare event = .ok (loop.rollBack event) := by
  have top : (loop.rollBack event).process.reorgCache.lastHeight = none := by
    rw [ReorgCache.lastHeight, empty]
    rfl
  simp only [prepare, top]

namespace Aligned

variable {env : Env} {loop : Loop} {event : BlockEvent}

theorem restore_count (aligned : Aligned loop) {previous : Nat}
    (known : loop.prevHeight = some previous) (target : Nat) :
    loop.restore target =
      loop.undoing (min (previous - target) loop.process.reorgCache.blocks.length) := by
  obtain ⟨_, block, head⟩ := aligned.previous previous known
  obtain ⟨count, fits, result, above, stopped⟩ := loop.restore_undoing target
  have atMost : count ≤ previous - target := by
    cases count with
    | zero => exact Nat.zero_le _
    | succ place =>
        have found := List.getElem?_eq_getElem (Nat.lt_of_succ_le fits)
        have lowest := aligned.height head found
        have higher := above place (Nat.lt_succ_self place) _ found
        dsimp only at lowest
        omega
  have atLeast : count < loop.process.reorgCache.blocks.length → previous - target ≤ count := by
    intro more
    have found := List.getElem?_eq_getElem more
    have top := aligned.height head found
    have lower := stopped _ found
    dsimp only at top
    omega
  rw [result]
  congr 1
  omega

theorem follows_previous (aligned : Aligned loop) (delivered : Delivered env loop event)
    {previous : Nat} (known : loop.prevHeight = some previous) :
    event.id.height + event.reorgLen = previous + 1 := by
  obtain ⟨_, block, head⟩ := aligned.previous previous known
  apply delivered.follows
  rw [Loop.previous, head]
  rfl

theorem rollBack_near (aligned : Aligned loop) (delivered : Delivered env loop event)
    {previous : Nat} (known : loop.prevHeight = some previous) (reorg : 0 < event.reorgLen)
    (near : handlesReorgs event = true) :
    loop.rollBack event = loop.undoing (min (min event.reorgLen previous)
      loop.process.reorgCache.blocks.length) := by
  have small := (aligned.previous previous known).1
  have order := aligned.follows_previous delivered known
  have target : asU32 (previous - event.reorgLen) = previous - event.reorgLen :=
    Nat.mod_eq_of_lt (by omega)
  simp only [rollBack, if_pos near, if_pos reorg, known, Option.getD_some, target]
  rw [aligned.restore_count known]
  congr 1
  omega

theorem prepared_undoing (aligned : Aligned loop) (delivered : Delivered env loop event)
    (covered : Covered loop event) (reorg : 0 < event.reorgLen) {prepared : Loop}
    (result : loop.prepare event = .ok prepared) :
    prepared = loop.undoing event.reorgLen ∧ 0 < event.id.height := by
  obtain ⟨near, held⟩ := covered.2 reorg
  obtain ⟨rolled, unrefused⟩ := prepare_ok result
  cases known : loop.prevHeight with
  | none =>
      rw [aligned.idle known] at held
      exact absurd (Nat.lt_of_lt_of_le reorg held) (Nat.lt_irrefl 0)
  | some previous =>
      have order := aligned.follows_previous delivered known
      have count := aligned.rollBack_near delivered known reorg near
      by_cases whole : event.reorgLen ≤ previous
      · rw [Nat.min_eq_left whole, Nat.min_eq_left held] at count
        exact ⟨rolled.trans count, by omega⟩
      · -- the reorg goes below the first block, which no restore undoes
        obtain ⟨_, block, head⟩ := aligned.previous previous known
        rw [Nat.min_eq_right (Nat.le_of_not_le whole), Nat.min_eq_left (by omega)] at count
        have found : loop.process.reorgCache.blocks[previous]? = some _ :=
          List.getElem?_eq_getElem (by omega)
        have lowest := aligned.height head found
        have last : (loop.undoing previous).process.reorgCache.lastHeight = some 0 := by
          rw [ReorgCache.lastHeight, undoing, List.head?_drop, found, Option.map_some]
          congr 1
          dsimp only at lowest
          omega
        rw [count, last] at unrefused
        have matched := unrefused 0 rfl
        rw [show event.id.height = 0 by omega] at matched
        exact absurd matched (by decide)

theorem prepared_chain (aligned : Aligned loop) (delivered : Delivered env loop event)
    (covered : Covered loop event) {prepared : Loop}
    (result : loop.prepare event = .ok prepared) :
    prepared.process.chain = loop.process.chain.drop event.reorgLen := by
  by_cases reorg : 0 < event.reorgLen
  · rw [(aligned.prepared_undoing delivered covered reorg result).1]
    rfl
  · rw [(prepare_ok result).1, Nat.eq_zero_of_not_pos reorg, List.drop_zero]
    simp only [rollBack, if_neg reorg]
    split <;> rfl

theorem follows_undone (aligned : Aligned loop) (delivered : Delivered env loop event) :
    Chain.Follows (loop.process.chain.drop event.reorgLen) event.id.height := by
  intro last found
  rw [List.head?_drop] at found
  cases head : loop.process.chain.head? with
  | none =>
      rw [List.head?_eq_none_iff.mp head] at found
      cases found
  | some top =>
      have order := delivered.follows top.1 (by rw [Loop.previous, head]; rfl)
      have height := aligned.sound.holds.height head found
      omega

theorem step (aligned : Aligned loop) {input : LoopInput} {next : Loop}
    (permitted : Permitted env Covered loop input) (stepped : loop.step env input = .ok next) :
    Aligned next := by
  cases input with
  | event event =>
      obtain ⟨delivered, covered⟩ := permitted
      obtain ⟨prepared, result, handled⟩ := Machine.bind_ok.mp stepped
      have chain := aligned.prepared_chain delivered covered result
      have backed : Backed prepared := by
        rw [(prepare_ok result).1]
        exact aligned.rollBack env event
      refine backed.handleEvent covered.1 ?_ ?_ handled
      · rw [chain]
        exact aligned.follows_undone delivered
      · rw [chain]
        exact delivered.valid
  | kill =>
      cases stepped
      exact aligned.restart
  | stop =>
      cases stepped
      exact (aligned.restore env 0).restart

end Aligned

namespace Aligned

variable {env : Env} {loop : Loop} {event : BlockEvent}

theorem undone_of_covered (aligned : Aligned loop) (delivered : Delivered env loop event)
    (covered : Covered loop event) (reorg : 0 < event.reorgLen) :
    UndoneOrRefused loop event := by
  intro prepared result
  obtain ⟨rfl, positive⟩ := aligned.prepared_undoing delivered covered reorg result
  have held := (covered.2 reorg).2
  have place : event.reorgLen - 1 < loop.process.reorgCache.blocks.length := by omega
  have count : event.reorgLen = event.reorgLen - 1 + 1 := by omega
  have found := List.getElem?_eq_getElem place
  obtain ⟨block, applied⟩ := aligned.sound.restorable.heights found
  have last := undoAll_lastBlock found loop.process.db
  have ledger := aligned.undoes.undone place
  rw [← count] at last ledger
  refine ⟨⟨_, last, ?_⟩, rfl, ledger⟩
  cases head : loop.process.chain.head? with
  | none =>
      rw [List.head?_eq_none_iff.mp head] at applied
      cases applied
  | some top =>
      have order := delivered.follows top.1 (by rw [Loop.previous, head]; rfl)
      have height := aligned.height head found
      omega

theorem rollBack_emptied (aligned : Aligned loop) (delivered : Delivered env loop event)
    (reorg : 0 < event.reorgLen)
    (lacking : handlesReorgs event = true →
      loop.process.reorgCache.blocks.length < event.reorgLen) :
    (loop.rollBack event).process.reorgCache.blocks = [] ∧
      ∃ count < event.reorgLen, count ≤ loop.process.reorgCache.blocks.length ∧
        (loop.rollBack event).process.chain = loop.process.chain.drop count ∧
        (loop.rollBack event).process.db =
          undoAll (loop.process.reorgCache.blocks.take count) loop.process.db := by
  by_cases near : handlesReorgs event = true
  · have short := lacking near
    cases known : loop.prevHeight with
    | none =>
        have empty := aligned.idle known
        have rolled : loop.rollBack event = loop := by
          simp only [rollBack, if_pos near, if_pos reorg]
          exact restore_empty empty _
        rw [rolled]
        exact ⟨empty, 0, reorg, Nat.zero_le _, rfl, rfl⟩
    | some previous =>
        have order := aligned.follows_previous delivered known
        have rolled := aligned.rollBack_near delivered known reorg near
        have whole : min (min event.reorgLen previous) loop.process.reorgCache.blocks.length =
            loop.process.reorgCache.blocks.length := by omega
        rw [rolled, whole]
        exact ⟨List.drop_length, _, short, Nat.le_refl _, rfl, rfl⟩
  · have rolled : loop.rollBack event = loop.clear := by
      simp only [rollBack, if_neg near, if_pos reorg]
      exact restore_empty rfl _
    rw [rolled]
    exact ⟨rfl, 0, reorg, Nat.zero_le _, rfl, rfl⟩

theorem covered_of_undone (aligned : Aligned loop) (delivered : Delivered env loop event)
    (reorg : 0 < event.reorgLen) (undone : UndoneOrRefused loop event) :
    Covered loop event := by
  have held : handlesReorgs event = true ∧
      event.reorgLen ≤ loop.process.reorgCache.blocks.length := by
    by_contra missing
    have lacking : handlesReorgs event = true →
        loop.process.reorgCache.blocks.length < event.reorgLen :=
      fun near => Nat.lt_of_not_le fun held => missing ⟨near, held⟩
    obtain ⟨empty, count, fewer, cached, chain, db⟩ :=
      aligned.rollBack_emptied delivered reorg lacking
    obtain ⟨⟨last, marked, next⟩, dropped, _⟩ := undone _ (prepare_empty empty)
    rw [db] at marked
    cases count with
    | zero =>
        have lengths := congrArg List.length (chain.symm.trans dropped)
        rw [List.drop_zero, List.length_drop] at lengths
        have gone : loop.process.chain = [] := List.length_eq_zero_iff.mp (by omega)
        have order := delivered.follows last (by rw [Loop.previous, gone]; exact marked)
        omega
    | succ place =>
        have found := List.getElem?_eq_getElem (Nat.lt_of_succ_le cached)
        obtain ⟨block, applied⟩ := aligned.sound.restorable.heights found
        rw [undoAll_lastBlock found] at marked
        cases head : loop.process.chain.head? with
        | none =>
            rw [List.head?_eq_none_iff.mp head] at applied
            cases applied
        | some top =>
            have order := delivered.follows top.1 (by rw [Loop.previous, head]; rfl)
            have height := aligned.height head found
            simp only [Option.some.injEq] at marked
            omega
  refine ⟨?_, fun _ => held⟩
  cases known : loop.prevHeight with
  | none =>
      rw [aligned.idle known, List.length_nil] at held
      omega
  | some previous =>
      have small := (aligned.previous previous known).1
      have order := aligned.follows_previous delivered known
      omega

end Aligned

theorem reached_aligned {env : Env} {loop : Loop}
    (reached : Reaches (Loop.step env) (Permitted env Covered) {} loop) : Aligned loop := by
  refine reached.invariant ?_ (fun _ _ _ aligned permitted stepped =>
    aligned.step permitted stepped)
  exact {
    sound := {
      holds := List.isChain_nil
      placed := .start
      restorable := trivial
      len := rfl
      short := Nat.zero_le _ }
    undoes := trivial
    previous := fun _ impossible => by cases impossible
    idle := fun _ => rfl }

/-- A reorg is undone or refused when the abandoned blocks are cached, and only then. -/
theorem reorgs_undone_iff {env : Env} {loop : Loop} {event : BlockEvent}
    (reached : Reaches (Loop.step env) (Permitted env Covered) {} loop)
    (delivered : Delivered env loop event) (reorg : 0 < event.reorgLen) :
    UndoneOrRefused loop event ↔ Covered loop event := by
  have aligned := reached_aligned reached
  constructor
  · intro undone
    exact aligned.covered_of_undone delivered reorg undone
  · intro covered
    exact aligned.undone_of_covered delivered covered reorg

instance (env : Env) (loop : Loop) (event : BlockEvent) : Decidable (Delivered env loop event) :=
  decidable_of_iff
    ((∀ previous ∈ loop.previous, event.id.height + event.reorgLen = previous + 1) ∧
      event.reorgLen ≤ reorgCacheMaxLen ∧ event.id.height ≤ event.tip ∧
      ValidBlock env (Chain.utxo (loop.process.chain.drop event.reorgLen))
        (Chain.txids (loop.process.chain.drop event.reorgLen)) event.block)
    ⟨fun ⟨follows, short, tip, valid⟩ => ⟨follows, short, tip, valid⟩,
      fun delivered => ⟨delivered.follows, delivered.short, delivered.tip, delivered.valid⟩⟩

instance (loop : Loop) (event : BlockEvent) : Decidable (Covered loop event) :=
  inferInstanceAs (Decidable (event.id.height < 2 ^ 32 ∧ (0 < event.reorgLen →
    handlesReorgs event = true ∧ event.reorgLen ≤ loop.process.reorgCache.blocks.length)))

instance (env : Env) (allowed : Loop → BlockEvent → Prop)
    [∀ loop event, Decidable (allowed loop event)] (loop : Loop) (input : LoopInput) :
    Decidable (Permitted env allowed loop input) :=
  match input with
  | .event event => inferInstanceAs (Decidable (Delivered env loop event ∧ allowed loop event))
  | .kill => inferInstanceAs (Decidable True)
  | .stop => inferInstanceAs (Decidable True)

end Loop

namespace Sample

def delivery (height : Nat) (block : Block) (reorgLen : Nat) : BlockEvent :=
  { id := { height, hash := 0 }, block, reorgLen, tip := 30 }

def twoBlocks : List LoopInput :=
  [.event (delivery 1 payWojak 0), .event (delivery 2 inscribeWojak 0)]

end Sample

namespace Loop

theorem reorg_undone : ∃ loop event,
    Reaches (Loop.step Sample.env) (Permitted Sample.env Covered) {} loop ∧
      0 < event.reorgLen ∧ (loop.prepare event).toOption.isSome ∧ UndoneOrRefused loop event := by
  obtain ⟨loop, reached, delivered, covered, prepared⟩ : ∃ loop,
      Reaches (Loop.step Sample.env) (Permitted Sample.env Covered) {} loop ∧
        Delivered Sample.env loop (Sample.delivery 2 Sample.inscribeWojak 1) ∧
        Covered loop (Sample.delivery 2 Sample.inscribeWojak 1) ∧
        (loop.prepare (Sample.delivery 2 Sample.inscribeWojak 1)).toOption.isSome :=
    Reaches.any Sample.twoBlocks (by decide +kernel)
  exact ⟨loop, _, reached, Nat.one_pos, prepared,
    (reorgs_undone_iff reached delivered Nat.one_pos).mpr covered⟩

/-- After a restart a block is handled on top of the one that its reorg abandons. -/
theorem abandoned_kept : ∃ loop event,
    Reaches (Loop.step Sample.env) (Permitted Sample.env fun _ _ => True) {} loop ∧
      Delivered Sample.env loop event ∧ 0 < event.reorgLen ∧ ¬UndoneOrRefused loop event := by
  obtain ⟨loop, reached, delivered, wrong⟩ : ∃ loop,
      Reaches (Loop.step Sample.env) (Permitted Sample.env fun _ _ => True) {} loop ∧
        Delivered Sample.env loop (Sample.delivery 2 Sample.inscribeWojak 1) ∧
        (loop.prepare (Sample.delivery 2 Sample.inscribeWojak 1)).toOption.any
          (fun prepared => decide (prepared.process.db.lastBlock = some 2)) = true :=
    Reaches.any (Sample.twoBlocks ++ [.kill]) (by decide +kernel)
  refine ⟨loop, _, reached, delivered, Nat.one_pos, ?_⟩
  intro undone
  obtain ⟨prepared, result, last⟩ := (Option.any_eq_true _ _).mp wrong
  cases ready : loop.prepare (Sample.delivery 2 Sample.inscribeWojak 1) with
  | error fault =>
      rw [ready] at result
      cases result
  | ok value =>
      rw [ready] at result
      cases result
      obtain ⟨⟨height, marked, next⟩, _⟩ := undone prepared ready
      rw [of_decide_eq_true last, Option.some.injEq] at marked
      subst marked
      exact absurd next (by decide)

end Loop

end WjkIndexer
