import WjkIndexer.Blk.Producer

/-!
Insertion into a checkpoint: the chain is walked down to the place of the new block, and the blocks
above that place are put back or dropped.
-/

namespace WjkIndexer.Blk

namespace CheckPoint

def Descending (ids : List BlockId) : Prop :=
  ids.Pairwise fun newer older => older.height < newer.height

/-- Each block is above the one before it. -/
def Ascending (checkpoint : CheckPoint) : Prop := Descending checkpoint.ids

/-- The lowest block. -/
def first (checkpoint : CheckPoint) : BlockId := checkpoint.below.getLastD checkpoint.block

def lower (ids : List BlockId) (height : Nat) : List BlockId :=
  ids.filter fun block => block.height < height

def higher (ids : List BlockId) (height : Nat) : List BlockId :=
  ids.filter fun block => height < block.height

def Conflicts (ids : List BlockId) (blockId : BlockId) : Prop :=
  ∃ block ∈ ids, block.height = blockId.height ∧ block.hash ≠ blockId.hash

instance (ids : List BlockId) (blockId : BlockId) : Decidable (Conflicts ids blockId) :=
  inferInstanceAs (Decidable (∃ block ∈ ids, _))

theorem extend_ascending {checkpoint : CheckPoint} {blocks : List BlockId}
    (ascending : ((checkpoint.block :: blocks).map BlockId.height).Pairwise (· < ·)) :
    ∃ next, checkpoint.extend blocks = some next := by
  induction blocks generalizing checkpoint with
  | nil => exact ⟨checkpoint, rfl⟩
  | cons block rest ih =>
      rw [List.map_cons, List.pairwise_cons] at ascending
      have above : checkpoint.height < block.height := ascending.1 _ List.mem_cons_self
      rw [extend, push, if_pos above, Option.bind_some]
      exact ih ascending.2

theorem extend_ids {checkpoint next : CheckPoint} {blocks : List BlockId}
    (extended : checkpoint.extend blocks = some next) :
    next.ids = blocks.reverse ++ checkpoint.ids := by
  induction blocks generalizing checkpoint with
  | nil =>
      cases extended
      rfl
  | cons block rest ih =>
      rw [extend, push] at extended
      split at extended
      · rw [Option.bind_some] at extended
        rw [ih extended, List.reverse_cons, List.append_assoc]
        rfl
      · cases extended

theorem extend_descending {checkpoint : CheckPoint} {blocks : List BlockId}
    (descending : Descending (blocks.reverse ++ checkpoint.ids)) :
    ∃ next, checkpoint.extend blocks = some next ∧
      next.ids = blocks.reverse ++ checkpoint.ids := by
  have ascending : ((checkpoint.block :: blocks).map BlockId.height).Pairwise (· < ·) := by
    rw [List.pairwise_map, ← List.reverse_reverse (checkpoint.block :: blocks),
      List.pairwise_reverse, List.reverse_cons]
    refine List.Pairwise.sublist ?_ descending
    exact (List.Sublist.refl _).append (List.singleton_sublist.mpr List.mem_cons_self)
  obtain ⟨next, extended⟩ := extend_ascending ascending
  exact ⟨next, extended, extend_ids extended⟩

theorem higher_eq_nil {ids : List BlockId} {height : Nat}
    (below : ∀ block ∈ ids, block.height ≤ height) : higher ids height = [] := by
  apply List.filter_eq_nil_iff.mpr
  intro block listed more
  have bound := below block listed
  have exceeds := of_decide_eq_true more
  omega

theorem lower_eq_self {ids : List BlockId} {height : Nat}
    (below : ∀ block ∈ ids, block.height < height) : lower ids height = ids :=
  List.filter_eq_self.mpr fun block listed => decide_eq_true (below block listed)

theorem Descending.split {ids : List BlockId} {block : BlockId} (descending : Descending ids)
    (listed : block ∈ ids) :
    ids = higher ids block.height ++ block :: lower ids block.height := by
  induction ids with
  | nil => cases listed
  | cons top rest ih =>
      obtain ⟨under, later⟩ := List.pairwise_cons.mp descending
      rcases List.mem_cons.mp listed with rfl | member
      · have none : higher (block :: rest) block.height = [] := by
          apply higher_eq_nil
          intro other found
          rcases List.mem_cons.mp found with rfl | deeper
          · exact Nat.le_refl _
          · exact Nat.le_of_lt (under other deeper)
        have all : lower (block :: rest) block.height = rest := by
          rw [lower, List.filter_cons_of_neg (by simp)]
          exact lower_eq_self under
        rw [none, all, List.nil_append]
      · have less := under block member
        have kept : higher (top :: rest) block.height = top :: higher rest block.height :=
          List.filter_cons_of_pos (decide_eq_true less)
        have dropped : lower (top :: rest) block.height = lower rest block.height :=
          List.filter_cons_of_neg (by simp [Nat.le_of_lt less])
        rw [kept, dropped, List.cons_append, ← ih later member]

theorem Descending.le_top {block other : BlockId} {below : List BlockId}
    (descending : Descending (block :: below)) (listed : other ∈ block :: below) :
    other.height ≤ block.height := by
  rcases List.mem_cons.mp listed with rfl | deeper
  · exact Nat.le_refl _
  · exact Nat.le_of_lt ((List.pairwise_cons.mp descending).1 other deeper)

theorem whole_lower {blockId block : BlockId} {below : List BlockId}
    (less : block.height < blockId.height) (descending : Descending (block :: below)) :
    lower (block :: below) blockId.height = block :: below ∧
      higher (block :: below) blockId.height = [] ∧ ¬Conflicts (block :: below) blockId := by
  refine ⟨lower_eq_self fun other listed => ?_, higher_eq_nil fun other listed => ?_, ?_⟩
  · exact Nat.lt_of_le_of_lt (descending.le_top listed) less
  · exact Nat.le_of_lt (Nat.lt_of_le_of_lt (descending.le_top listed) less)
  · rintro ⟨other, listed, same, _⟩
    have bound := descending.le_top listed
    omega

theorem findBase_cases {blockId block : BlockId} {below : List BlockId} (tail : List BlockId)
    (descending : Descending (block :: below))
    (above : (below.getLastD block).height < blockId.height) :
    blockId ∈ block :: below ∧ findBase blockId block below tail = .ok .present ∨
      ∃ base : CheckPoint, base.ids = lower (block :: below) blockId.height ∧
        findBase blockId block below tail = .ok (.below base
          (if Conflicts (block :: below) blockId then []
          else (higher (block :: below) blockId.height).reverse ++ tail)) := by
  induction below generalizing block tail with
  | nil =>
      have less : block.height < blockId.height := above
      obtain ⟨kept, none, free⟩ := whole_lower less descending
      refine Or.inr ⟨{ block, below := [] }, kept.symm, ?_⟩
      rw [findBase, if_neg (Nat.ne_of_lt less), if_pos less, if_neg free, none, List.reverse_nil,
        List.nil_append]
  | cons next rest ih =>
      obtain ⟨under, later⟩ := List.pairwise_cons.mp descending
      have deeper : (rest.getLastD next).height < blockId.height := by
        rw [List.getLastD_cons] at above
        exact above
      rcases lt_trichotomy block.height blockId.height with less | same | more
      · obtain ⟨kept, none, free⟩ := whole_lower less descending
        refine Or.inr ⟨{ block, below := next :: rest }, kept.symm, ?_⟩
        rw [findBase, if_neg (Nat.ne_of_lt less), if_pos less, if_neg free, none,
          List.reverse_nil, List.nil_append]
      · by_cases hash : block.hash = blockId.hash
        · have present : block = blockId := by
            cases block
            cases blockId
            rw [BlockId.mk.injEq]
            exact ⟨same, hash⟩
          refine Or.inl ⟨present ▸ List.mem_cons_self, ?_⟩
          rw [findBase, if_pos same, if_pos hash]
        · right
          have positive : block.height ≠ 0 := by omega
          have conflict : Conflicts (block :: next :: rest) blockId :=
            ⟨block, List.mem_cons_self, same, hash⟩
          refine ⟨{ block := next, below := rest }, ?_, ?_⟩
          · rw [lower, List.filter_cons_of_neg (by simp [same])]
            exact (lower_eq_self fun other listed => same ▸ under other listed).symm
          · rw [findBase, if_pos same, if_neg hash, if_neg positive, if_pos conflict]
      · have kept : higher (block :: next :: rest) blockId.height =
            block :: higher (next :: rest) blockId.height :=
          List.filter_cons_of_pos (decide_eq_true more)
        have dropped : lower (block :: next :: rest) blockId.height =
            lower (next :: rest) blockId.height :=
          List.filter_cons_of_neg (by simp [Nat.le_of_lt more])
        have conflicts : Conflicts (block :: next :: rest) blockId ↔
            Conflicts (next :: rest) blockId := by
          constructor
          · rintro ⟨other, listed, place, different⟩
            rcases List.mem_cons.mp listed with rfl | deep
            · omega
            · exact ⟨other, deep, place, different⟩
          · rintro ⟨other, deep, place, different⟩
            exact ⟨other, List.mem_cons_of_mem _ deep, place, different⟩
        have walked : findBase blockId block (next :: rest) tail =
            findBase blockId next rest (block :: tail) := by
          rw [findBase.eq_def]
          exact (if_neg (Nat.ne_of_gt more)).trans (if_neg (Nat.not_lt.mpr (Nat.le_of_lt more)))
        rw [walked]
        rcases ih (block :: tail) later deeper with ⟨listed, found⟩ | ⟨base, ids, found⟩
        · exact Or.inl ⟨List.mem_cons_of_mem _ listed, found⟩
        · refine Or.inr ⟨base, ?_, ?_⟩
          · rw [ids, dropped]
          · rw [found, kept, List.reverse_cons, List.append_assoc, List.singleton_append,
              if_congr conflicts rfl rfl]

theorem Descending.eq_of_height {ids : List BlockId} (descending : Descending ids)
    {block other : BlockId} (listed : block ∈ ids) (found : other ∈ ids)
    (same : block.height = other.height) : block = other := by
  have distinct : (ids.map BlockId.height).Nodup :=
    List.pairwise_map.mpr (descending.imp fun less => Nat.ne_of_gt less)
  exact List.inj_on_of_nodup_map distinct listed found same

theorem descending_merged {ids : List BlockId} (descending : Descending ids) (blockId : BlockId) :
    Descending (higher ids blockId.height ++ blockId :: lower ids blockId.height) := by
  have below : ∀ block ∈ lower ids blockId.height, block.height < blockId.height :=
    fun block listed => of_decide_eq_true (List.mem_filter.mp listed).2
  refine List.pairwise_append.mpr ⟨descending.filter _,
    List.pairwise_cons.mpr ⟨below, descending.filter _⟩, ?_⟩
  intro block listed other found
  have above : blockId.height < block.height := of_decide_eq_true (List.mem_filter.mp listed).2
  rcases List.mem_cons.mp found with rfl | deeper
  · exact above
  · exact Nat.lt_trans (below other deeper) above

/-- Insertion above the lowest block does not panic. The blocks below the place of the new block
stay; those above it stay unless another block had its place. -/
theorem insert_merged {checkpoint : CheckPoint} {blockId : BlockId}
    (ascending : checkpoint.Ascending) (above : checkpoint.first.height < blockId.height) :
    ∃ next, checkpoint.insert blockId = .ok next ∧ next.Ascending ∧
      next.ids =
        (if Conflicts checkpoint.ids blockId then [] else higher checkpoint.ids blockId.height) ++
          blockId :: lower checkpoint.ids blockId.height := by
  rcases findBase_cases [] ascending above with ⟨listed, found⟩ | ⟨base, ids, found⟩
  · have free : ¬Conflicts checkpoint.ids blockId := by
      rintro ⟨other, member, same, different⟩
      rw [ascending.eq_of_height member listed same] at different
      exact different rfl
    refine ⟨checkpoint, ?_, ascending, ?_⟩
    · rw [insert, found]
      rfl
    · rw [if_neg free]
      exact ascending.split listed
  · generalize shape : (if Conflicts checkpoint.ids blockId then []
      else higher checkpoint.ids blockId.height) = kept
    have merged : Descending (kept ++ blockId :: base.ids) := by
      have whole := descending_merged ascending blockId
      rw [ids, ← shape]
      split
      · exact whole.sublist (List.sublist_append_right _ _)
      · exact whole
    have tail : (if Conflicts checkpoint.ids blockId then []
        else (higher checkpoint.ids blockId.height).reverse ++ []) = kept.reverse := by
      rw [← shape]
      split
      · rfl
      · rw [List.append_nil]
    have order : (blockId :: kept.reverse).reverse ++ base.ids = kept ++ blockId :: base.ids := by
      rw [List.reverse_cons, List.reverse_reverse, List.append_assoc, List.singleton_append]
    obtain ⟨next, extended, result⟩ := extend_descending (order.symm ▸ merged)
    rw [order] at result
    refine ⟨next, ?_, ?_, result.trans (by rw [ids]; rfl)⟩
    · have walked : findBase blockId checkpoint.block checkpoint.below [] =
          .ok (.below base kept.reverse) := tail ▸ found
      rw [insert, walked]
      simp only [bind, Except.bind, extended]
    · rw [Ascending, result]
      exact merged

end CheckPoint

namespace Sample

def blockAt (height hash : Nat) : BlockId where
  height := height
  hash := BitVec.ofNat 256 hash

def gapped : CheckPoint where
  block := blockAt 5 50
  below := [blockAt 4 40, blockAt 2 20, blockAt 1 10]

end Sample

theorem gapped_merged :
    (∃ next, Sample.gapped.insert (Sample.blockAt 3 30) = .ok next ∧ next.Ascending ∧
      next.ids = Sample.gapped.ids.take 2 ++ Sample.blockAt 3 30 :: Sample.gapped.ids.drop 2) ∧
    ∃ next, Sample.gapped.insert (Sample.blockAt 4 41) = .ok next ∧ next.Ascending ∧
      next.ids = Sample.blockAt 4 41 :: Sample.gapped.ids.drop 2 := by
  have ascending : Sample.gapped.Ascending := by
    unfold CheckPoint.Ascending CheckPoint.Descending
    decide
  constructor
  · obtain ⟨next, inserted, ordered, ids⟩ :=
      @CheckPoint.insert_merged _ (Sample.blockAt 3 30) ascending (by decide)
    exact ⟨next, inserted, ordered, ids.trans (by decide)⟩
  · obtain ⟨next, inserted, ordered, ids⟩ :=
      @CheckPoint.insert_merged _ (Sample.blockAt 4 41) ascending (by decide)
    exact ⟨next, inserted, ordered, ids.trans (by decide)⟩

end WjkIndexer.Blk
