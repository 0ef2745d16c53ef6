import WjkIndexer.Database.Range

/-!
The scan of the events of a token: encoded keys in byte order, read in a reversed range and
decoded one by one.
-/

namespace WjkIndexer

open FiniteTable ByteString SortedStore

/-- The scan of `token_events` without a search. Only what it takes is decoded. -/
def tokenEvents (store : List (Bytes × Bytes)) (tick : OriginalTokenTick) (offset : Option Nat)
    (limit : Nat) : Except PebbleError (List AddressTokenIdDB) :=
  let first := Pebble.tokenId.getBytes { token := tick, id := 0 }
  let last := Pebble.tokenId.getBytes { token := tick, id := offset.getD (2 ^ 64 - 1) }
  (((range store (.included first) (.excluded last) true).take limit).mapM
    (decodeEntry Pebble.tokenId Pebble.addressTokenIdDB)).map fun entries => entries.map Prod.snd

def eventsPage (table : Table TokenId AddressTokenIdDB) (tick : OriginalTokenTick)
    (offset : Option Nat) (limit : Nat) : List AddressTokenIdDB :=
  let ids := (table.keys.filter fun key =>
    key.token = tick ∧ key.id < offset.getD (2 ^ 64 - 1)).image TokenId.id
  ((ids.sort (· ≥ ·)).take limit).filterMap fun id => table.get ⟨tick, id⟩

namespace Pebble

theorem tokenId_lt {first second : TokenId} (fits : first.id < 2 ^ 64)
    (bound : second.id < 2 ^ 64) :
    tokenId.getBytes first < tokenId.getBytes second ↔
      first.token.bytes < second.token.bytes ∨
        first.token.bytes = second.token.bytes ∧ first.id < second.id := by
  have width : first.token.bytes.length = second.token.bytes.length := by
    rw [first.token.size, second.token.size]
  simp only [tokenId]
  rw [append_lt_append width, beBytes_lt (lt_of_lt_of_eq fits (by norm_num))
    (lt_of_lt_of_eq bound (by norm_num))]

theorem tokenId_fromBytes (key : TokenId) :
    tokenId.fromBytes (tokenId.getBytes key) = .error .invalid := by
  have length : (tokenId.getBytes key).length = 16 := by
    simp [tokenId, key.token.size]
  have first : slice (tokenId.getBytes key) 0 4 = .ok ((tokenId.getBytes key).take 4) := by
    rw [slice, if_pos ⟨by omega, by omega⟩, List.drop_zero]
  have short : tryInto 8 ((tokenId.getBytes key).take 4) = .error .invalid := by
    rw [tryInto, dif_neg]
    rw [List.length_take, length]
    decide
  generalize tokenId.getBytes key = bytes at first short
  simp only [tokenId, first, short, bind, Except.bind]

end Pebble

theorem within_bounds {tick : OriginalTokenTick} {key : TokenId} {bound : Nat}
    (fits : key.id < 2 ^ 64) (small : bound < 2 ^ 64) :
    (Bound.included (Pebble.tokenId.getBytes { token := tick, id := 0 })).above
        (Pebble.tokenId.getBytes key) = true ∧
      (Bound.excluded (Pebble.tokenId.getBytes { token := tick, id := bound })).below
        (Pebble.tokenId.getBytes key) = true ↔ key.token = tick ∧ key.id < bound := by
  simp only [Bound.above, Bound.below, decide_eq_true_eq]
  rw [← not_lt, Pebble.tokenId_lt fits (by norm_num), Pebble.tokenId_lt fits small]
  constructor
  · rintro ⟨notBelow, before | ⟨same, lower⟩⟩
    · exact absurd (Or.inl before) notBelow
    · refine ⟨?_, lower⟩
      cases key with
      | mk token id =>
          cases token
          cases tick
          dsimp only at same
          subst same
          rfl
  · rintro ⟨rfl, lower⟩
    simp [lower]

/-- A stored key is never read back, though the keys are in the order of ticks and ids. The
scan of a token is right exactly when it has nothing to read. -/
theorem tokenEvents_iff {store : List (Bytes × Bytes)}
    {table : Table TokenId AddressTokenIdDB}
    (stored : Stored Pebble.tokenId Pebble.addressTokenIdDB store table)
    (ranged : ∀ key ∈ table.keys, key.id < 2 ^ 64) (tick : OriginalTokenTick)
    (offset : Option Nat) (limit : Nat) (small : offset.getD (2 ^ 64 - 1) < 2 ^ 64) :
    (∀ key, Pebble.tokenId.fromBytes (Pebble.tokenId.getBytes key) = .error .invalid) ∧
    (∀ first second : TokenId, first.id < 2 ^ 64 → second.id < 2 ^ 64 →
      (Pebble.tokenId.getBytes first < Pebble.tokenId.getBytes second ↔
        first.token.bytes < second.token.bytes ∨
          first.token.bytes = second.token.bytes ∧ first.id < second.id)) ∧
    (tokenEvents store tick offset limit = .ok (eventsPage table tick offset limit) ↔
      limit = 0 ∨ ∀ key ∈ table.keys, key.token = tick → offset.getD (2 ^ 64 - 1) ≤ key.id) := by
  refine ⟨Pebble.tokenId_fromBytes, fun _ _ => Pebble.tokenId_lt, ?_⟩
  have scanned := range_eq stored.sorted
    (.included (Pebble.tokenId.getBytes { token := tick, id := 0 }))
    (.excluded (Pebble.tokenId.getBytes { token := tick, id := offset.getD (2 ^ 64 - 1) })) true
  rw [if_pos rfl] at scanned
  constructor
  · intro read
    by_contra both
    simp only [not_or, not_forall, not_le] at both
    obtain ⟨positive, key, member, rfl, lower⟩ := both
    obtain ⟨value, found⟩ := Table.mem_keys_iff.mp member
    have inside := (within_bounds (ranged key member) small).mpr ⟨rfl, lower⟩
    have listed : (Pebble.tokenId.getBytes key, Pebble.addressTokenIdDB.getBytes value) ∈
        range store (.included (Pebble.tokenId.getBytes { token := key.token, id := 0 }))
          (.excluded (Pebble.tokenId.getBytes
            { token := key.token, id := offset.getD (2 ^ 64 - 1) })) true := by
      rw [scanned, List.mem_reverse, List.mem_filter, Bool.and_eq_true]
      exact ⟨(stored.entries _).mpr ⟨key, value, found, rfl⟩, inside⟩
    obtain ⟨entry, rest, shape⟩ := List.exists_cons_of_ne_nil (List.ne_nil_of_mem listed)
    have origin : entry ∈ store := by
      have first : entry ∈ range store
          (.included (Pebble.tokenId.getBytes { token := key.token, id := 0 }))
          (.excluded (Pebble.tokenId.getBytes
            { token := key.token, id := offset.getD (2 ^ 64 - 1) })) true := by
        rw [shape]
        exact List.mem_cons_self
      rw [scanned, List.mem_reverse] at first
      exact List.mem_of_mem_filter first
    obtain ⟨query, _, _, same⟩ := (stored.entries entry).mp origin
    have broken : decodeEntry Pebble.tokenId Pebble.addressTokenIdDB entry = .error .panic := by
      rw [same, decodeEntry, Pebble.tokenId_fromBytes]
    obtain ⟨count, rfl⟩ := Nat.exists_eq_succ_of_ne_zero positive
    rw [tokenEvents, shape, List.take_succ_cons, List.mapM_cons, broken] at read
    cases read
  · intro nothing
    rcases nothing with rfl | none
    · simp only [tokenEvents, eventsPage, List.take_zero, List.mapM_nil, List.filterMap_nil]
      rfl
    · have empty : range store (.included (Pebble.tokenId.getBytes { token := tick, id := 0 }))
          (.excluded (Pebble.tokenId.getBytes
            { token := tick, id := offset.getD (2 ^ 64 - 1) })) true = [] := by
        rw [scanned, List.reverse_eq_nil_iff, List.filter_eq_nil_iff]
        intro entry listed inside
        obtain ⟨key, value, found, rfl⟩ := (stored.entries entry).mp listed
        have member := Table.mem_keys_iff.mpr ⟨value, found⟩
        rw [Bool.and_eq_true, within_bounds (ranged key member) small] at inside
        exact absurd inside.2 (Nat.not_lt.mpr (none key member inside.1))
      have unmatched : (table.keys.filter fun key =>
          key.token = tick ∧ key.id < offset.getD (2 ^ 64 - 1)) = ∅ := by
        apply Finset.filter_eq_empty_iff.mpr
        rintro key member ⟨same, lower⟩
        exact absurd lower (Nat.not_lt.mpr (none key member same))
      simp only [tokenEvents, eventsPage, empty, unmatched, List.take_nil, List.mapM_nil,
        Finset.image_empty, Finset.sort_empty, List.filterMap_nil]
      rfl

namespace Sample

def event : AddressTokenIdDB :=
  { address := 7, token := { bytes := [99, 0, 0, 0, 0, 0, 0, 0], size := rfl }, id := 1 }

def otherTick : OriginalTokenTick := { bytes := [100, 0, 0, 0, 0, 0, 0, 0], size := rfl }

end Sample

theorem single_stored (key : TokenId) (value : AddressTokenIdDB) :
    Stored Pebble.tokenId Pebble.addressTokenIdDB
      [(Pebble.tokenId.getBytes key, Pebble.addressTokenIdDB.getBytes value)]
      ((∅ : Table TokenId AddressTokenIdDB).set key value) := by
  refine {
    sorted := List.pairwise_singleton _ _
    entries := ?_ }
  intro entry
  rw [List.mem_singleton]
  constructor
  · rintro rfl
    exact ⟨key, value, Table.get_set_self _ _ _, rfl⟩
  · rintro ⟨query, found, present, rfl⟩
    rw [Table.get_set] at present
    split at present
    · rename_i same
      cases present
      rw [same]
    · cases present

theorem other_unread :
    tokenEvents [(Pebble.tokenId.getBytes ⟨Sample.event.token, 1⟩,
        Pebble.addressTokenIdDB.getBytes Sample.event)] Sample.otherTick none 10 =
      .ok (eventsPage ((∅ : Table TokenId AddressTokenIdDB).set ⟨Sample.event.token, 1⟩
        Sample.event) Sample.otherTick none 10) := by
  have single : ∀ key ∈ ((∅ : Table TokenId AddressTokenIdDB).set ⟨Sample.event.token, 1⟩
      Sample.event).keys, key = ⟨Sample.event.token, 1⟩ := by
    intro key member
    rw [Table.keys_set, Finset.mem_insert] at member
    rcases member with same | impossible
    · exact same
    · cases impossible
  refine (tokenEvents_iff (single_stored _ _) ?_ Sample.otherTick none 10 ?_).2.2.mpr
    (Or.inr ?_)
  · intro key member
    rw [single key member]
    decide
  · decide
  · intro key member same
    rw [single key member] at same
    exact absurd same (by decide)

/-- The key of the first event of a token is not read back. -/
theorem tokenId_lost :
    Pebble.tokenId.fromBytes (Pebble.tokenId.getBytes
        { token := { bytes := [99, 0, 0, 0, 0, 0, 0, 0], size := rfl }, id := 1 }) =
      .error .invalid := by
  decide +kernel

end WjkIndexer
