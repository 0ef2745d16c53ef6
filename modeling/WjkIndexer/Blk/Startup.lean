import WjkIndexer.Blk.Checkpoint
import WjkIndexer.Blk.Reorgs

/-!
The start of the producer: where the blocks that it sends first stand on the chain that is stored.
-/

namespace WjkIndexer.Blk

open FiniteTable

def tipAfter (stored : BlockId) (sent : List BlockEvent) : BlockId :=
  match sent.getLast? with
  | none => stored
  | some event => { height := event.id.height, hash := event.block.header.hash }

/-- A block that is sent without a reorg is the child of the newest block, which is the stored one
at first. -/
def OnTip (stored : BlockId) (sent : List BlockEvent) : Prop :=
  ∀ before event after, sent = before ++ event :: after → event.reorgLen = 0 →
    event.id.height = (tipAfter stored before).height + 1 ∧
      event.block.header.prevHash = (tipAfter stored before).hash

theorem tipAfter_concat (stored : BlockId) (sent : List BlockEvent) (event : BlockEvent) :
    tipAfter stored (sent ++ [event]) =
      { height := event.id.height, hash := event.block.header.hash } := by
  rw [tipAfter, List.getLast?_concat]

theorem OnTip.concat {stored : BlockId} {sent : List BlockEvent} {event : BlockEvent}
    (onTip : OnTip stored sent) (next : event.reorgLen = 0 →
      event.id.height = (tipAfter stored sent).height + 1 ∧
        event.block.header.prevHash = (tipAfter stored sent).hash) :
    OnTip stored (sent ++ [event]) := by
  intro before other after split
  rcases split_concat split with ⟨rfl, rfl⟩ | ⟨rest, earlier⟩
  · exact next
  · exact onTip before other rest earlier

namespace CheckPoint

theorem extend_spec {checkpoint next : CheckPoint} {blocks : List BlockId}
    (extended : checkpoint.extend blocks = some next) :
    (next.block = checkpoint.block ∨ next.block ∈ blocks) ∧
      checkpoint.height ≤ next.height ∧ ∀ block ∈ blocks, block.height ≤ next.height := by
  induction blocks generalizing checkpoint with
  | nil =>
      cases extended
      exact ⟨Or.inl rfl, Nat.le_refl _, fun block listed => by cases listed⟩
  | cons block rest ih =>
      rw [extend, push] at extended
      split at extended
      · rename_i above
        rw [Option.bind_some] at extended
        obtain ⟨newest, higher, others⟩ := ih extended
        have first : block.height ≤ next.height := higher
        refine ⟨?_, by omega, ?_⟩
        · rcases newest with same | later
          · exact Or.inr (same ▸ List.mem_cons_self)
          · exact Or.inr (List.mem_cons_of_mem _ later)
        · intro other listed
          rcases List.mem_cons.mp listed with rfl | later
          · exact first
          · exact others other later
      · cases extended

end CheckPoint

namespace ChainStorage

variable {chain : ChainStorage}

def indexed (chain : ChainStorage) : List BlockId :=
  chain.heights.filterMap fun height =>
    (chain.blockIndex.get height).map fun record => ⟨height, record.blockHash⟩

theorem mem_heights {height : Nat} : height ∈ chain.heights ↔ height ∈ chain.blockIndex.keys := by
  simp only [heights, List.mem_filter, List.mem_range, decide_eq_true_eq, and_iff_right_iff_imp]
  intro known
  have below : id height ≤ chain.blockIndex.keys.sup id := Finset.le_sup known
  exact Nat.lt_succ_of_le below

theorem mem_indexed {id : BlockId} : id ∈ chain.indexed ↔
    ∃ record, chain.blockIndex.get id.height = some record ∧ record.blockHash = id.hash := by
  simp only [indexed, List.mem_filterMap, mem_heights, Table.mem_keys_iff, Option.map_eq_some_iff]
  constructor
  · rintro ⟨height, _, record, found, rfl⟩
    exact ⟨record, found, rfl⟩
  · rintro ⟨record, found, same⟩
    exact ⟨id.height, ⟨record, found⟩, record, found, by rw [same]⟩

theorem indexed_ascending (chain : ChainStorage) :
    (chain.indexed.map BlockId.height).Pairwise (· < ·) := by
  rw [List.pairwise_map, indexed, List.pairwise_filterMap]
  refine (List.pairwise_lt_range.filter _).imp ?_
  intro lower upper below first found second later
  obtain ⟨_, _, rfl⟩ := Option.map_eq_some_iff.mp found
  obtain ⟨_, _, rfl⟩ := Option.map_eq_some_iff.mp later
  exact below

theorem complete_some {checkpoint : CheckPoint} (found : chain.complete = some checkpoint) :
    (∃ record, chain.blockIndex.get checkpoint.height = some record ∧
      record.blockHash = checkpoint.hash) ∧ chain.maxHeight ≤ checkpoint.height := by
  have built : CheckPoint.fromBlockIds chain.indexed = some checkpoint := found
  cases shape : chain.indexed with
  | nil =>
      rw [shape] at built
      cases built
  | cons first rest =>
      rw [shape] at built
      obtain ⟨newest, higher, others⟩ := CheckPoint.extend_spec built
      have member : checkpoint.block ∈ chain.indexed := by
        rw [shape, List.mem_cons]
        exact newest
      refine ⟨mem_indexed.mp member, Finset.sup_le ?_⟩
      intro height known
      obtain ⟨record, recorded⟩ := Table.mem_keys_iff.mp known
      have listed : (⟨height, record.blockHash⟩ : BlockId) ∈ chain.indexed :=
        mem_indexed.mpr ⟨record, recorded, rfl⟩
      rw [shape, List.mem_cons] at listed
      rcases listed with rfl | later
      · exact higher
      · exact others _ later

theorem complete_none (missing : chain.complete = none) (height : Nat) :
    chain.blockIndex.get height = none := by
  have built : CheckPoint.fromBlockIds chain.indexed = none := missing
  cases shape : chain.indexed with
  | nil =>
      cases recorded : chain.blockIndex.get height with
      | none => rfl
      | some record =>
          have listed : (⟨height, record.blockHash⟩ : BlockId) ∈ chain.indexed :=
            mem_indexed.mpr ⟨record, recorded, rfl⟩
          rw [shape] at listed
          cases listed
  | cons first rest =>
      have ascending := chain.indexed_ascending
      rw [shape] at built ascending
      obtain ⟨next, extended⟩ :=
        @CheckPoint.extend_ascending { block := first, below := [] } rest ascending
      rw [CheckPoint.fromBlockIds, extended] at built
      cases built

theorem maxHeight_none (missing : chain.complete = none) : chain.maxHeight = 0 := by
  have empty : chain.blockIndex.keys = ∅ := by
    ext height
    rw [Table.mem_keys_iff, complete_none missing height]
    simp
  rw [maxHeight, empty]
  rfl

end ChainStorage

/-- The hash of a block belongs to one height, in what is stored, in the index and in the files. -/
structure Settings.Intact (settings : Settings) (heightOf : BlockHash → Nat) : Prop where
  last : heightOf settings.lastBlock.hash = settings.lastBlock.height
  index : ∀ height record, settings.chain.blockIndex.get height = some record →
    heightOf record.blockHash = height
  files : ∀ height block, settings.chain.getBlock height = .ok (some block) →
    heightOf block.header.hash = height

/-- Without an index, the node's hash at the stored height is the stored one. -/
def Settings.Agrees (settings : Settings) (producer : Producer) (nodes : Node × Node) : Prop :=
  producer.phase = .complete → settings.chain.complete = none →
    ∀ hash ∈ nodes.1.getBlockHash settings.lastBlock.height, hash = settings.lastBlock.hash

instance (settings : Settings) (producer : Producer) (nodes : Node × Node) :
    Decidable (settings.Agrees producer nodes) :=
  inferInstanceAs (Decidable (_ → _ → ∀ hash ∈ nodes.1.getBlockHash settings.lastBlock.height, _))

structure Linked (tip : BlockId) (lastHash : BlockHash) (checkpoint : CheckPoint) : Prop where
  expected : lastHash = tip.hash
  height : checkpoint.hash = tip.hash → checkpoint.height = tip.height

inductive Filling (stored tip : BlockId) (heightOf : BlockHash → Nat) (lastHeight : Nat)
    (sent : List BlockEvent) (checkpoint : CheckPoint) : Prop where
  | stored (last : lastHeight = stored.height) (none : sent = []) (same : checkpoint.block = stored)
  | index (last : lastHeight = stored.height + 1)
      (filed : heightOf checkpoint.hash = checkpoint.height)
      (known : heightOf tip.hash = tip.height) (above : sent = [] ∨ stored.height < checkpoint.height)
  | answered (last : lastHeight = stored.height + 1) (none : sent = [])
      (below : checkpoint.height ≤ stored.height)

theorem Filling.linked {stored : BlockId} {heightOf : BlockHash → Nat} {lastHeight : Nat}
    {sent : List BlockEvent} {checkpoint : CheckPoint}
    (filling : Filling stored (tipAfter stored sent) heightOf lastHeight sent checkpoint)
    (reached : lastHeight - 1 ≤ checkpoint.height) :
    checkpoint.hash = (tipAfter stored sent).hash →
      checkpoint.height = (tipAfter stored sent).height := by
  intro same
  cases filling with
  | stored last none block =>
      subst none
      rw [CheckPoint.height, block]
      rfl
  | index last filed known above => rw [← filed, ← known, same]
  | answered last none below =>
      subst none
      show checkpoint.height = stored.height
      omega

namespace Producer

variable {settings : Settings} {producer next : Producer} {nodes : Node × Node}
  {heightOf : BlockHash → Nat}

def Ready (settings : Settings) (heightOf : BlockHash → Nat) (producer : Producer)
    (tip : BlockId) : Phase → Prop
  | .files height =>
      height = tip.height + 1 ∧ producer.lastHash = tip.hash ∧ heightOf tip.hash = tip.height ∧
        producer.lastHeight = settings.lastBlock.height + 1 ∧
        settings.lastBlock.height < height ∧
        (producer.sent = [] ∨ settings.lastBlock.height < settings.chain.maxHeight)
  | .complete =>
      producer.lastHash = tip.hash ∧ heightOf tip.hash = tip.height ∧
        producer.lastHeight = settings.lastBlock.height + 1 ∧
        (producer.sent = [] ∨ settings.lastBlock.height < settings.chain.maxHeight)
  | .fill checkpoint =>
      producer.lastHash = tip.hash ∧
        Filling settings.lastBlock tip heightOf producer.lastHeight producer.sent checkpoint
  | .poll checkpoint => Linked tip producer.lastHash checkpoint
  | .rewind checkpoint _ reorgCounter | .forward checkpoint _ reorgCounter =>
      reorgCounter = 0 → Linked tip producer.lastHash checkpoint

structure Started (settings : Settings) (heightOf : BlockHash → Nat) (producer : Producer) :
    Prop where
  onTip : OnTip settings.lastBlock producer.sent
  ready : Ready settings heightOf producer (tipAfter settings.lastBlock producer.sent)
    producer.phase

theorem Started.turn (intact : settings.Intact heightOf)
    (started : Started settings heightOf producer) (agrees : settings.Agrees producer nodes)
    (resumes : ¬ producer.phase.Abandons nodes)
    (turn : Turn settings producer nodes next) : Started settings heightOf next := by
  obtain ⟨onTip, ready⟩ := started
  cases turn with
  | filesDone phase =>
      rw [phase] at ready
      obtain ⟨_, expected, known, last, _, above⟩ := ready
      exact ⟨onTip, expected, known, last, above⟩
  | @filesSent height block phase inside read ordered =>
      rw [phase] at ready
      obtain ⟨next, expected, known, last, higher, _⟩ := ready
      refine ⟨onTip.concat fun _ => ⟨next, by rw [← ordered, expected]⟩, ?_⟩
      rw [tipAfter_concat]
      exact ⟨rfl, rfl, intact.files height block read, last, Nat.lt_succ_of_lt higher,
        Or.inr (lt_of_lt_of_le higher inside)⟩
  | @indexed checkpoint phase found =>
      rw [phase] at ready
      obtain ⟨expected, known, last, above⟩ := ready
      obtain ⟨⟨record, recorded, same⟩, highest⟩ := ChainStorage.complete_some found
      refine ⟨onTip, expected, .index last ?_ known (above.imp id fun higher => by omega)⟩
      rw [← same]
      exact intact.index _ _ recorded
  | @unindexed hash phase none answered =>
      rw [phase] at ready
      obtain ⟨_, _, last, above⟩ := ready
      have nothing : producer.sent = [] := by
        refine above.resolve_right ?_
        rw [ChainStorage.maxHeight_none none]
        omega
      have stored : producer.lastHeight - 1 = settings.lastBlock.height := by omega
      rw [stored] at answered ⊢
      obtain rfl := agrees phase none hash answered
      refine ⟨onTip, ?_, .stored rfl nothing rfl⟩
      show settings.lastBlock.hash = (tipAfter settings.lastBlock producer.sent).hash
      rw [nothing]
      rfl
  | filled phase lower answered =>
      rw [phase] at ready
      obtain ⟨expected, filling⟩ := ready
      refine ⟨onTip, expected, ?_⟩
      cases filling with
      | stored last none same =>
          rw [last, CheckPoint.height, same] at lower
          omega
      | index last filed known above =>
          exact .answered last (above.resolve_right (by omega)) (by
            show _ + 1 ≤ _
            omega)
      | answered last none below =>
          exact .answered last none (by
            show _ + 1 ≤ _
            omega)
  | fillDone phase reached =>
      rw [phase] at ready
      exact ⟨onTip, ready.1, ready.2.linked reached⟩
  | idle phase => exact ⟨onTip, ready⟩
  | behind phase =>
      rw [phase] at ready
      exact ⟨onTip, fun _ => ready⟩
  | popped phase under => exact ⟨onTip, fun none => by cases none⟩
  | forked phase =>
      rw [phase] at ready
      exact ⟨onTip, ready⟩
  | guarded phase lower answered fetched apart =>
      rw [phase] at ready
      exact ⟨onTip, ready (not_abandons_counter resumes phase (Or.inr
        ⟨_, Option.bind_eq_some_iff.mpr ⟨_, answered, fetched⟩, apart⟩))⟩
  | caughtUp phase reached =>
      rw [phase] at ready
      exact ⟨onTip, ready (not_abandons_counter resumes phase (Or.inl reached))⟩
  | forwardSent phase lower linked ordered =>
      rw [phase] at ready
      refine ⟨onTip.concat fun none => ?_, ?_⟩
      · obtain ⟨expected, height⟩ := ready none
        have child := ordered.symm.trans expected
        exact ⟨congrArg (· + 1) (height (linked.symm.trans child)), child⟩
      · rw [tipAfter_concat]
        exact fun _ => ⟨rfl, fun _ => rfl⟩

/-- A block that is sent without a reorg is on the newest one, in every run from a stored block in
which the node agrees with it and no taking off is forgotten. -/
theorem startup_continues {final : Producer} {answers : List (Node × Node)}
    (intact : settings.Intact heightOf) (positive : 0 < settings.lastBlock.height)
    (along : Machine.Along (step settings)
      (fun producer nodes => settings.Agrees producer nodes ∧ ¬ producer.phase.Abandons nodes)
      (start settings) answers)
    (ran : answers.foldlM (step settings) (start settings) = .ok final) :
    OnTip settings.lastBlock final.sent := by
  have last : settings.lastBlock.height ≠ 0 := Nat.ne_of_gt positive
  have started : Started settings heightOf (start settings) := by
    constructor
    · intro before event after split
      cases before <;> cases split
    · simp only [start, if_neg last]
      exact ⟨rfl, rfl, intact.last, rfl, Nat.lt_succ_self _, Or.inl rfl⟩
  have kept := Machine.run_along ran along started fun _ _ _ started allowed stepped =>
    started.turn intact allowed.1 allowed.2 (step_turn stepped)
  exact kept.onTip

end Producer

namespace Sample

def record (number : Nat) : BlockIndexRecordSmall where
  blockHash := BitVec.ofNat 256 number
  blkIndex := 0
  dataOffset := number

def withFiles : Settings where
  lastBlock := { height := 1, hash := BitVec.ofNat 256 11 }
  reorgMaxLen := 30
  chain := {
    blockIndex := ((∅ : Table Nat BlockIndexRecordSmall).set 1 (record 11)).set 2 (record 12)
    blkFiles := some ((∅ : Table Nat (Nat → Option Block)).set 0 fun offset =>
      some (blockOn (offset - 1) offset)) }

def heightOf (hash : BlockHash) : Nat := hash.toNat - 10

theorem withFiles_intact : withFiles.Intact heightOf := by
  constructor
  · rfl
  · intro height record found
    simp only [withFiles, Table.get_set, Table.get_empty] at found
    split_ifs at found with second first
    · cases found
      rw [second]
      rfl
    · cases found
      rw [first]
      rfl
  · intro height block read
    simp only [ChainStorage.getBlock, withFiles, Table.get_set, Table.get_empty] at read
    split_ifs at read with second first
    · cases read
      rw [second]
      rfl
    · cases read
      rw [first]
      rfl
    · cases read

end Sample

theorem withFiles_continues :
    ∃ final, (Sample.turns 9 [11, 12, 13]).foldlM (Producer.step Sample.withFiles)
        (Producer.start Sample.withFiles) = .ok final ∧
      (final.sent.map fun event => event.id.height) = [2, 3] ∧
      OnTip Sample.withFiles.lastBlock final.sent := by
  have ends : ((Sample.turns 9 [11, 12, 13]).foldlM (Producer.step Sample.withFiles)
      (Producer.start Sample.withFiles)).toOption.any (fun final => decide
        ((final.sent.map fun event => event.id.height) = [2, 3])) = true := by
    decide +kernel
  obtain ⟨final, found, sent⟩ := (Option.any_eq_true _ _).mp ends
  have ran := Machine.toOption_some.mp found
  exact ⟨final, ran, of_decide_eq_true sent, Producer.startup_continues Sample.withFiles_intact
    (by decide) (by decide +kernel) ran⟩

/-- Without an index, block 22 is sent on top of the stored block 11 when the best chain became
21, 22. -/
theorem replaced_unnoticed :
    ∃ final event, (Sample.turns 6 [21, 22]).foldlM (Producer.step Sample.settings)
        (Producer.start Sample.settings) = .ok final ∧
      final.sent = [event] ∧ event.reorgLen = 0 ∧
      event.block.header.prevHash ≠ Sample.settings.lastBlock.hash ∧
      ¬ OnTip Sample.settings.lastBlock final.sent := by
  have ends : ((Sample.turns 6 [21, 22]).foldlM (Producer.step Sample.settings)
      (Producer.start Sample.settings)).toOption.any (fun final => decide (final.sent =
        [{ id := { height := 2, hash := BitVec.ofNat 256 22 }
           block := Sample.blockOn 21 22
           reorgLen := 0
           tip := 2 }])) = true := by
    decide +kernel
  obtain ⟨final, found, same⟩ := (Option.any_eq_true _ _).mp ends
  have sent := of_decide_eq_true same
  refine ⟨final, _, Machine.toOption_some.mp found, sent, rfl, by decide +kernel, ?_⟩
  intro onTip
  have child := (onTip [] _ [] sent rfl).2
  exact absurd child (by decide +kernel)

end WjkIndexer.Blk
