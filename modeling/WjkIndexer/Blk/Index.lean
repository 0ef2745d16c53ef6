import WjkIndexer.Chain.Types
import WjkIndexer.Library.Bytes

/-!
The index of the block files: of the records that the node keeps of each height, one chain is
picked from the tip down.
-/

namespace WjkIndexer.Blk

open FiniteTable ByteString

inductive IndexError where
  -- an error that is returned
  | read
  | panic
  -- `size too large`
  | sizeTooLarge
  deriving DecidableEq, Repr

structure BlockHeightRange where
  start : Nat
  stop : Option Nat
  deriving DecidableEq, Repr

structure BlockIndexRecord where
  blockHash : BlockHash
  blkIndex : Nat
  dataOffset : Nat
  height : Nat
  status : Nat
  prevHash : BlockHash
  deriving DecidableEq, Repr

structure BlockIndexRecordSmall where
  blockHash : BlockHash
  blkIndex : Nat
  dataOffset : Nat
  deriving DecidableEq, Repr

def BlockIndexRecord.small (record : BlockIndexRecord) : BlockIndexRecordSmall where
  blockHash := record.blockHash
  blkIndex := record.blkIndex
  dataOffset := record.dataOffset

def blockHaveData : Nat := 8
def blockHaveUndo : Nat := 16

/-- `BLOCK_VALID_RESERVED | TREE | TRANSACTIONS | CHAIN | SCRIPTS` -/
def blockValidMask : Nat := 1 ||| 2 ||| 3 ||| 4 ||| 5

def blockFailedMask : Nat := 32 ||| 64

def readVarint : Nat → Bytes → Except IndexError (Nat × Bytes)
  | _, [] => .error .read
  | number, byte :: rest =>
      if number > (2 ^ 64 - 1) >>> 7 then .error .sizeTooLarge
      else
        let number := (number <<< 7) ||| (byte &&& 0x7f).toNat
        if byte &&& 0x80 > 0 then
          if number = 2 ^ 64 - 1 then .error .sizeTooLarge else readVarint (number + 1) rest
        else .ok (number, rest)

def readPrevHash (bytes : Bytes) : Except IndexError BlockHash :=
  if 80 ≤ bytes.length then .ok (BitVec.ofNat 256 (ofBeBytes ((bytes.drop 4).take 32)))
  else .error .read

namespace BlockIndexRecord

def readIf (announced : Bool) (bytes : Bytes) : Except IndexError (Option Nat × Bytes) :=
  if announced then (readVarint 0 bytes).map fun (number, rest) => (some number, rest)
  else .ok (none, bytes)

def ofEntry (key values : Bytes) : Except IndexError (Option BlockIndexRecord) := do
  if key.length ≠ 32 then .error .panic
  else
    let (_, bytes) ← readVarint 0 values
    let (height, bytes) ← readVarint 0 bytes
    let (status, bytes) ← readVarint 0 bytes
    let (_, bytes) ← readVarint 0 bytes
    if status &&& (blockHaveData ||| blockHaveUndo) > 0 then
      let (blkIndex, bytes) ← readVarint 0 bytes
      let (dataOffset, bytes) ← readIf (status &&& blockHaveData > 0) bytes
      let (_, bytes) ← readIf (status &&& blockHaveUndo > 0) bytes
      let prevHash ← readPrevHash bytes
      match dataOffset with
      | none => .error .panic
      | some dataOffset =>
          .ok (some {
            blockHash := BitVec.ofNat 256 (ofBeBytes key)
            blkIndex, dataOffset, height, status, prevHash })
    else .ok none

def accepted (range : BlockHeightRange) (record : BlockIndexRecord) : Bool :=
  !(record.height < range.start - 1 || record.height > range.stop.getD (2 ^ 64 - 1)) &&
    !(record.status &&& blockValidMask == 0) && !(record.status &&& blockFailedMask != 0)

end BlockIndexRecord

def readRecords : List (Bytes × Bytes) → Except IndexError (List BlockIndexRecord)
  | [] => .ok []
  | ([], _) :: _ => .error .panic
  | (tag :: hash, values) :: rest =>
      if tag ≠ 98 then .ok []
      else do
        let record ← BlockIndexRecord.ofEntry hash values
        let others ← readRecords rest
        .ok (record.toList ++ others)

def heightsOf (records : List BlockIndexRecord) : List Nat :=
  (records.map BlockIndexRecord.height).dedup.insertionSort (· ≥ ·)

def recordsAt (records : List BlockIndexRecord) (height : Nat) : List BlockIndexRecord :=
  records.filter fun record => record.height = height

/-- The closure of `batching`, over the groups from the tip down: it looks at the group below and
keeps the position of the record that it picks there. -/
def batching : Option Nat → List (List BlockIndexRecord) →
    Except IndexError (List (List BlockIndexRecord))
  | _, [] => .ok []
  | lastPos, current :: rest =>
      if lastPos.isNone ∧ current.length ≠ 1 then do
        let others ← batching lastPos rest
        .ok ([] :: others)
      else
        match current[lastPos.getD 0]? with
        | none => .error .panic
        | some record =>
            match rest with
            | [] => .ok []
            | below :: _ =>
                match below.findIdx? fun candidate => candidate.blockHash == record.prevHash with
                | none => .error .panic
                | some position =>
                    match below[position]? with
                    | none => .error .panic
                    | some chosen => do
                        let others ← batching (some position) rest
                        .ok ([chosen] :: others)

def pickChain (records : List BlockIndexRecord) :
    Except IndexError (Table Nat BlockIndexRecordSmall) := do
  let batches ← batching none ((heightsOf records).map (recordsAt records))
  .ok ((∅ : Table Nat BlockIndexRecordSmall).extendList
    (batches.flatten.map fun record => (record.height, record.small)))

def acceptedRecords (range : BlockHeightRange) (entries : List (Bytes × Bytes)) :
    Except IndexError (List BlockIndexRecord) := do
  let records ← readRecords entries
  .ok (records.filter (BlockIndexRecord.accepted range))

def getBlockIndex (range : BlockHeightRange) (entries : List (Bytes × Bytes)) :
    Except IndexError (Table Nat BlockIndexRecordSmall) := do
  let records ← acceptedRecords range entries
  pickChain records

def Links (child parent : BlockIndexRecord) : Prop := parent.blockHash = child.prevHash

theorem batching_linked {position : Nat} {current : List BlockIndexRecord}
    {rest batches : List (List BlockIndexRecord)} {record : BlockIndexRecord}
    (picked : current[position]? = some record)
    (returned : batching (some position) (current :: rest) = .ok batches) :
    List.Forall₂ (fun record group => record ∈ group) batches.flatten rest ∧
      List.IsChain Links (record :: batches.flatten) := by
  induction rest generalizing position current batches record with
  | nil =>
      rw [batching, if_neg (by simp)] at returned
      simp only [Option.getD_some, picked] at returned
      cases returned
      exact ⟨.nil, .singleton _⟩
  | cons below rest ih =>
      rw [batching, if_neg (by simp)] at returned
      simp only [Option.getD_some, picked] at returned
      cases found : below.findIdx? fun candidate => candidate.blockHash == record.prevHash with
      | none =>
          simp only [found] at returned
          cases returned
      | some next =>
          simp only [found] at returned
          cases lookup : below[next]? with
          | none =>
              simp only [lookup] at returned
              cases returned
          | some chosen =>
              simp only [lookup] at returned
              cases later : batching (some next) (below :: rest) with
              | error _ =>
                  rw [later] at returned
                  cases returned
              | ok others =>
                  rw [later] at returned
                  cases returned
                  obtain ⟨members, linked⟩ := ih lookup later
                  have parent : Links record chosen := by
                    obtain ⟨bound, same, _⟩ := List.findIdx?_eq_some_iff_getElem.mp found
                    obtain ⟨_, rfl⟩ := List.getElem?_eq_some_iff.mp lookup
                    exact eq_of_beq same
                  rw [List.flatten_cons, List.singleton_append]
                  exact ⟨.cons (List.mem_of_getElem? lookup) members, .cons_cons parent linked⟩

theorem batching_top {groups batches : List (List BlockIndexRecord)}
    (returned : batching none groups = .ok batches) :
    (∀ group ∈ groups, group.length ≠ 1) ∧ batches.flatten = [] ∨
      ∃ above record rest, groups = above ++ [record] :: rest ∧
        (∀ group ∈ above, group.length ≠ 1) ∧
        List.Forall₂ (fun record group => record ∈ group) batches.flatten rest ∧
        List.IsChain Links (record :: batches.flatten) := by
  induction groups generalizing batches with
  | nil =>
      cases returned
      exact Or.inl ⟨fun _ impossible => (List.not_mem_nil impossible).elim, rfl⟩
  | cons current rest ih =>
      by_cases alone : current.length = 1
      · obtain ⟨record, rfl⟩ := List.length_eq_one_iff.mp alone
        have same : batching none ([record] :: rest) = batching (some 0) ([record] :: rest) := by
          rw [batching, if_neg (by simp), batching, if_neg (by simp)]
          rfl
        rw [same] at returned
        have picked : [record][0]? = some record := rfl
        obtain ⟨members, linked⟩ := batching_linked picked returned
        exact Or.inr ⟨[], record, rest, rfl, fun _ impossible =>
          (List.not_mem_nil impossible).elim, members, linked⟩
      · rw [batching, if_pos ⟨rfl, alone⟩] at returned
        cases later : batching none rest with
        | error _ =>
            rw [later] at returned
            cases returned
        | ok others =>
            rw [later] at returned
            cases returned
            rw [List.flatten_cons, List.nil_append]
            rcases ih later with ⟨none, empty⟩ | ⟨above, record, below, rfl, none, members, linked⟩
            · left
              exact ⟨List.forall_mem_cons.mpr ⟨alone, none⟩, empty⟩
            · right
              exact ⟨current :: above, record, below, rfl,
                List.forall_mem_cons.mpr ⟨alone, none⟩, members, linked⟩

theorem mem_recordsAt {records : List BlockIndexRecord} {height : Nat}
    {record : BlockIndexRecord} :
    record ∈ recordsAt records height ↔ record ∈ records ∧ record.height = height := by
  rw [recordsAt, List.mem_filter, decide_eq_true_eq]

theorem mem_heightsOf {records : List BlockIndexRecord} {height : Nat} :
    height ∈ heightsOf records ↔ recordsAt records height ≠ [] := by
  rw [heightsOf, List.mem_insertionSort, List.mem_dedup, List.mem_map]
  constructor
  · rintro ⟨record, listed, same⟩
    exact List.ne_nil_of_mem (mem_recordsAt.mpr ⟨listed, same⟩)
  · intro some
    obtain ⟨record, listed⟩ := List.exists_mem_of_ne_nil _ some
    exact ⟨record, mem_recordsAt.mp listed⟩

theorem heightsOf_descending (records : List BlockIndexRecord) :
    (heightsOf records).Pairwise (· > ·) := by
  have sorted := List.pairwise_insertionSort (· ≥ ·) (records.map BlockIndexRecord.height).dedup
  have distinct : (heightsOf records).Nodup :=
    (List.perm_insertionSort _ _).nodup_iff.mpr (List.nodup_dedup _)
  refine (sorted.and distinct).imp ?_
  rintro higher lower ⟨least, different⟩
  exact lt_of_le_of_ne least different.symm

theorem linked_adjacent {chain : List BlockIndexRecord} (linked : chain.IsChain Links)
    (descending : (chain.map BlockIndexRecord.height).Pairwise (· > ·))
    {child parent : BlockIndexRecord} (listed : child ∈ chain) (member : parent ∈ chain)
    (lower : parent.height < child.height)
    (adjacent : ∀ other ∈ chain, ¬ (parent.height < other.height ∧ other.height < child.height)) :
    Links child parent := by
  induction chain with
  | nil => cases listed
  | cons first rest ih =>
      rw [List.map_cons, List.pairwise_cons] at descending
      have below : ∀ other ∈ rest, other.height < first.height := fun other found =>
        descending.1 _ (List.mem_map.mpr ⟨other, found, rfl⟩)
      rcases List.mem_cons.mp listed with rfl | later
      · rcases List.mem_cons.mp member with rfl | inside
        · omega
        · cases rest with
          | nil => cases inside
          | cons second others =>
              rw [List.isChain_cons_cons] at linked
              rcases List.mem_cons.mp inside with rfl | deeper
              · exact linked.1
              · rw [List.map_cons, List.pairwise_cons] at descending
                have under := descending.2.1 _ (List.mem_map.mpr ⟨parent, deeper, rfl⟩)
                exact absurd ⟨under, below second List.mem_cons_self⟩
                  (adjacent second (List.mem_cons_of_mem _ List.mem_cons_self))
      · rcases List.mem_cons.mp member with rfl | inside
        · have above := below child later
          omega
        · exact ih linked.tail descending.2 later inside
            fun other found => adjacent other (List.mem_cons_of_mem _ found)

structure Picked (records : List BlockIndexRecord) (index : Table Nat BlockIndexRecordSmall)
    (above : List Nat) (tip : BlockIndexRecord) (chosen : List BlockIndexRecord) : Prop where
  heights : heightsOf records = above ++ (tip :: chosen).map BlockIndexRecord.height
  alone : recordsAt records tip.height = [tip]
  ambiguous : ∀ height ∈ above, (recordsAt records height).length ≠ 1
  members : ∀ record ∈ chosen, record ∈ records
  linked : (tip :: chosen).IsChain Links
  index : index = (∅ : Table Nat BlockIndexRecordSmall).extendList
    (chosen.map fun record => (record.height, record.small))

theorem pickChain_cases {records : List BlockIndexRecord}
    {index : Table Nat BlockIndexRecordSmall} (returned : pickChain records = .ok index) :
    (∀ height, (recordsAt records height).length ≠ 1) ∧ index = ∅ ∨
      ∃ above tip chosen, Picked records index above tip chosen := by
  cases batched : batching none ((heightsOf records).map (recordsAt records)) with
  | error _ =>
      rw [pickChain, batched] at returned
      cases returned
  | ok batches =>
      rw [pickChain, batched] at returned
      cases returned
      rcases batching_top batched with ⟨none, empty⟩ |
        ⟨above, tip, rest, shape, none, members, linked⟩
      · left
        constructor
        · intro height single
          have recorded : height ∈ heightsOf records := by
            apply mem_heightsOf.mpr
            intro empty
            rw [empty] at single
            cases single
          exact none _ (List.mem_map.mpr ⟨height, recorded, rfl⟩) single
        · rw [empty]
          rfl
      · right
        obtain ⟨high, low, split, rfl, tail⟩ := List.map_eq_append_iff.mp shape
        obtain ⟨height, below, rfl, alone, rfl⟩ := List.map_eq_cons_iff.mp tail
        have first : tip ∈ recordsAt records height := by
          rw [alone]
          exact List.mem_singleton_self tip
        obtain ⟨_, rfl⟩ := mem_recordsAt.mp first
        have each : batches.flatten.map BlockIndexRecord.height = below ∧
            ∀ record ∈ batches.flatten, record ∈ records := by
          clear linked batched shape split tail first alone none
          generalize batches.flatten = chosen at members
          induction below generalizing chosen with
          | nil =>
              cases members
              exact ⟨rfl, fun _ impossible => (List.not_mem_nil impossible).elim⟩
          | cons next others ih =>
              rw [List.map_cons] at members
              cases members with
              | cons found later =>
                  obtain ⟨heights, inside⟩ := ih _ later
                  obtain ⟨listed, same⟩ := mem_recordsAt.mp found
                  rw [List.map_cons, heights, same]
                  exact ⟨rfl, List.forall_mem_cons.mpr ⟨listed, inside⟩⟩
        refine ⟨high, tip, batches.flatten, {
          heights := ?_
          alone := alone
          ambiguous := ?_
          members := each.2
          linked := linked
          index := rfl }⟩
        · rw [split, List.map_cons, each.1]
        · intro other listed
          exact none _ (List.mem_map.mpr ⟨other, listed, rfl⟩)

namespace Picked

variable {records chosen : List BlockIndexRecord} {index : Table Nat BlockIndexRecordSmall}
  {above : List Nat} {tip : BlockIndexRecord}

theorem descending (picked : Picked records index above tip chosen) :
    ((tip :: chosen).map BlockIndexRecord.height).Pairwise (· > ·) := by
  have sorted := heightsOf_descending records
  rw [picked.heights, List.pairwise_append] at sorted
  exact sorted.2.1

theorem recorded_iff (picked : Picked records index above tip chosen) {height : Nat}
    (below : height ≤ tip.height) :
    recordsAt records height ≠ [] ↔ height ∈ (tip :: chosen).map BlockIndexRecord.height := by
  rw [← mem_heightsOf, picked.heights, List.mem_append]
  refine or_iff_right ?_
  intro listed
  have sorted := heightsOf_descending records
  rw [picked.heights, List.pairwise_append] at sorted
  have higher := sorted.2.2 height listed tip.height (by simp)
  omega

theorem tip_height (picked : Picked records index above tip chosen) {height : Nat}
    (alone : (recordsAt records height).length = 1)
    (greatest : ∀ other, height < other → (recordsAt records other).length ≠ 1) :
    height = tip.height := by
  have single : (recordsAt records tip.height).length = 1 := by
    rw [picked.alone]
    rfl
  rcases lt_trichotomy height tip.height with less | same | more
  · exact absurd single (greatest _ less)
  · exact same
  · have recorded : height ∈ heightsOf records := by
      apply mem_heightsOf.mpr
      intro empty
      rw [empty] at alone
      cases alone
    rw [picked.heights, List.mem_append] at recorded
    rcases recorded with higher | lower
    · exact absurd alone (picked.ambiguous height higher)
    · have sorted := picked.descending
      rw [List.map_cons, List.pairwise_cons] at sorted
      rcases List.mem_cons.mp lower with rfl | listed
      · omega
      · have under := sorted.1 height listed
        omega

def recordOf (tip : BlockIndexRecord) (chosen : List BlockIndexRecord) (height : Nat) :
    BlockIndexRecord :=
  (((∅ : Table Nat BlockIndexRecord).extendList
    ((tip :: chosen).map fun record => (record.height, record))).get height).getD tip

theorem recordOf_height (picked : Picked records index above tip chosen)
    {record : BlockIndexRecord} (listed : record ∈ tip :: chosen) :
    recordOf tip chosen record.height = record := by
  have distinct : (((tip :: chosen).map fun record => (record.height, record)).map
      Prod.fst).Nodup := by
    rw [List.map_map]
    exact picked.descending.imp fun greater => (ne_of_gt greater)
  have found := (Table.get_extendList_iff distinct record.height record).mpr
    (List.mem_map.mpr ⟨record, listed, rfl⟩)
  rw [recordOf, found, Option.getD_some]

theorem get_index (picked : Picked records index above tip chosen) (height : Nat) :
    index.get height =
      if height < tip.height ∧ recordsAt records height ≠ [] then
        some (recordOf tip chosen height).small
      else none := by
  have sorted := picked.descending
  rw [List.map_cons, List.pairwise_cons] at sorted
  have distinct : ((chosen.map fun record => (record.height, record.small)).map
      Prod.fst).Nodup := by
    rw [List.map_map]
    exact sorted.2.imp fun greater => (ne_of_gt greater)
  rw [picked.index]
  by_cases inside : height ∈ chosen.map BlockIndexRecord.height
  · obtain ⟨record, listed, rfl⟩ := List.mem_map.mp inside
    have lower := sorted.1 _ inside
    have recorded := (picked.recorded_iff (le_of_lt lower)).mpr (List.mem_cons_of_mem _ inside)
    rw [if_pos ⟨lower, recorded⟩, picked.recordOf_height (List.mem_cons_of_mem _ listed)]
    exact (Table.get_extendList_iff distinct _ _).mpr (List.mem_map.mpr ⟨record, listed, rfl⟩)
  · have absent : height ∉ (chosen.map fun record => (record.height, record.small)).map
        Prod.fst := by
      rw [List.map_map]
      exact inside
    rw [Table.get_extendList_of_notMem absent, Table.get_empty, if_neg]
    rintro ⟨lower, recorded⟩
    rcases List.mem_cons.mp ((picked.recorded_iff (le_of_lt lower)).mp recorded) with same | listed
    · omega
    · exact inside listed

end Picked

/-- The index holds one accepted record of every recorded height below the greatest one with a single
record, each the parent of the one at the next recorded height above, and nothing else. -/
theorem getBlockIndex_linked {range : BlockHeightRange} {entries : List (Bytes × Bytes)}
    {records : List BlockIndexRecord} {index : Table Nat BlockIndexRecordSmall}
    (read : acceptedRecords range entries = .ok records)
    (returned : getBlockIndex range entries = .ok index) :
    (∀ top, (recordsAt records top).length = 1 →
      (∀ height, top < height → (recordsAt records height).length ≠ 1) →
      ∃ chosen : Nat → BlockIndexRecord,
        (∀ height ≤ top, recordsAt records height ≠ [] →
          chosen height ∈ recordsAt records height) ∧
        (∀ height, index.get height =
          if height < top ∧ recordsAt records height ≠ [] then some (chosen height).small
          else none) ∧
        ∀ height higher, height < higher → higher ≤ top → recordsAt records height ≠ [] →
          recordsAt records higher ≠ [] →
          (∀ between, height < between → between < higher → recordsAt records between = []) →
          (chosen height).blockHash = (chosen higher).prevHash) ∧
    ((∀ height, (recordsAt records height).length ≠ 1) → index = ∅) := by
  rw [getBlockIndex, read] at returned
  replace returned : pickChain records = .ok index := returned
  rcases pickChain_cases returned with ⟨none, empty⟩ | ⟨above, tip, chosen, picked⟩
  · exact ⟨fun top alone _ => absurd alone (none top), fun _ => empty⟩
  · constructor
    · intro top alone greatest
      obtain rfl := picked.tip_height alone greatest
      refine ⟨Picked.recordOf tip chosen, ?_, picked.get_index, ?_⟩
      · intro height lower recorded
        obtain ⟨record, listed, rfl⟩ :=
          List.mem_map.mp ((picked.recorded_iff lower).mp recorded)
        rw [picked.recordOf_height listed, mem_recordsAt]
        rcases List.mem_cons.mp listed with rfl | member
        · have first : record ∈ recordsAt records record.height := by
            rw [picked.alone]
            exact List.mem_singleton_self record
          exact mem_recordsAt.mp first
        · exact ⟨picked.members record member, rfl⟩
      · intro height higher lower bounded recorded present gap
        obtain ⟨parent, listed, rfl⟩ := List.mem_map.mp
          ((picked.recorded_iff (le_of_lt (lt_of_lt_of_le lower bounded))).mp recorded)
        obtain ⟨child, member, rfl⟩ := List.mem_map.mp ((picked.recorded_iff bounded).mp present)
        rw [picked.recordOf_height listed, picked.recordOf_height member]
        refine linked_adjacent picked.linked picked.descending member listed lower ?_
        rintro other found ⟨after, before⟩
        have none := gap other.height after before
        exact (picked.recorded_iff (by omega)).mpr (List.mem_map.mpr ⟨other, found, rfl⟩) none
    · intro none
      exact absurd (by rw [picked.alone]; rfl) (none tip.height)

namespace Sample

def recordAt (height hash prev : Nat) : BlockIndexRecord where
  blockHash := BitVec.ofNat 256 hash
  blkIndex := 0
  dataOffset := 8
  height := height
  status := 13
  prevHash := BitVec.ofNat 256 prev

def forked : List BlockIndexRecord :=
  [recordAt 1 11 10, recordAt 4 41 31, recordAt 2 21 11, recordAt 2 22 11, recordAt 3 31 22,
    recordAt 4 42 31]

/-- The entry of a record, with the header behind six numbers of one byte. -/
def entryOf (record : BlockIndexRecord) : Bytes × Bytes :=
  (98 :: beBytes 32 record.blockHash.toNat,
    [0, UInt8.ofNat record.height, 13, 0, 0, 8] ++ [0, 0, 0, 0] ++
      beBytes 32 record.prevHash.toNat ++ List.replicate 44 0)

def everyHeight : BlockHeightRange where
  start := 0
  stop := none

end Sample

theorem forked_linked :
    ∃ index, getBlockIndex Sample.everyHeight (Sample.forked.map Sample.entryOf) = .ok index ∧
      ∃ chosen : Nat → BlockIndexRecord,
      (∀ height ≤ 3, recordsAt Sample.forked height ≠ [] →
        chosen height ∈ recordsAt Sample.forked height) ∧
      (∀ height, index.get height =
        if height < 3 ∧ recordsAt Sample.forked height ≠ [] then some (chosen height).small
        else none) ∧
      ∀ height higher, height < higher → higher ≤ 3 → recordsAt Sample.forked height ≠ [] →
        recordsAt Sample.forked higher ≠ [] →
        (∀ between, height < between → between < higher →
          recordsAt Sample.forked between = []) →
        (chosen height).blockHash = (chosen higher).prevHash := by
  have read : acceptedRecords Sample.everyHeight (Sample.forked.map Sample.entryOf) =
      .ok Sample.forked := by
    rfl
  have picked : getBlockIndex Sample.everyHeight (Sample.forked.map Sample.entryOf) =
      .ok ((∅ : Table Nat BlockIndexRecordSmall).extendList
        ([Sample.recordAt 2 22 11, Sample.recordAt 1 11 10].map fun record =>
          (record.height, record.small))) := by
    rw [getBlockIndex, read]
    rfl
  refine ⟨_, picked, (getBlockIndex_linked read picked).1 3 (by decide) ?_⟩
  intro height higher
  by_cases tip : height = 4
  · rw [tip]
    decide
  · have none : recordsAt Sample.forked height = [] := by
      apply List.filter_eq_nil_iff.mpr
      intro record listed same
      have bounded : ∀ record ∈ Sample.forked, record.height ≤ 4 := by decide
      have least := bounded record listed
      rw [of_decide_eq_true same] at least
      omega
    rw [none]
    decide

end WjkIndexer.Blk
