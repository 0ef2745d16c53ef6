import WjkIndexer.Database.Locations
import WjkIndexer.Library.Paging

/-!
The transfers of an address and a tick, page by page. A page is asked for with the outpoint of the
last transfer of the page before it, while a key of the store also has an offset.
-/

namespace WjkIndexer

open FiniteTable ByteString SortedStore Paging

structure TokenTransfer where
  amount : Nat
  outpoint : OutPoint
  deriving DecidableEq, Repr

namespace AddressLocation

def lastOf (address : FullHash) : AddressLocation :=
  { address := address
    location := {
      outpoint := { txid := BitVec.allOnes 256, vout := 2 ^ 32 - 1 }
      offset := 2 ^ 64 - 1 } }

def searchOffset (address : FullHash) (offset : OutPoint) : AddressLocation × AddressLocation :=
  ({ address := address, location := { outpoint := offset, offset := 0 } }, lastOf address)

def search (address : FullHash) : Option OutPoint → AddressLocation × AddressLocation
  | some offset => searchOffset address offset
  | none =>
      ({ address := address, location := { outpoint := { txid := 0, vout := 0 }, offset := 0 } },
        lastOf address)

theorem last_ranged (address : FullHash) : (lastOf address).Ranged :=
  ⟨by simp [lastOf], by simp [lastOf]⟩

theorem serialize_le_last (outpoint : OutPoint) (address : FullHash) :
    outpoint.serialize ≤ (lastOf address).location.outpoint.serialize := by
  have greatest : (lastOf address).location.outpoint.serialize = List.replicate 36 255 := by
    dsimp only [lastOf]
    decide +kernel
  have below := le_replicate_max outpoint.serialize
  rwa [OutPoint.length_serialize, ← greatest] at below

theorem first_le_serialize (outpoint : OutPoint) :
    ({ txid := 0, vout := 0 } : OutPoint).serialize ≤ outpoint.serialize := by
  have least : ({ txid := 0, vout := 0 } : OutPoint).serialize = List.replicate 36 0 := by
    decide +kernel
  have above := replicate_zero_le outpoint.serialize
  rwa [OutPoint.length_serialize, ← least] at above

theorem lt_last_iff {key : AddressLocation} (ranged : key.Ranged) :
    Pebble.addressLocation.getBytes key < Pebble.addressLocation.getBytes (lastOf key.address) ↔
      key ≠ lastOf key.address := by
  rw [Pebble.addressLocation_lt ranged (last_ranged _)]
  constructor
  · rintro (impossible | ⟨_, less | ⟨_, less⟩⟩) same
    · exact lt_irrefl _ impossible
    · rw [← same] at less
      exact lt_irrefl _ less
    · rw [← same] at less
      exact lt_irrefl _ less
  · intro different
    refine Or.inr ⟨rfl, ?_⟩
    rcases (serialize_le_last key.location.outpoint key.address).lt_or_eq with less | same
    · exact Or.inl less
    · have outpoint := OutPoint.serialize_inj ranged.vout (last_ranged key.address).vout same
      refine Or.inr ⟨outpoint, lt_of_le_of_ne ?_ ?_⟩
      · have bounded := ranged.offset
        simp only [lastOf]
        omega
      · intro offset
        apply different
        obtain ⟨address, ⟨place, number⟩⟩ := key
        simp only [lastOf, mk.injEq, Location.mk.injEq, true_and] at outpoint offset ⊢
        exact ⟨outpoint, offset⟩

theorem within_search {key : AddressLocation} (ranged : key.Ranged) (address : FullHash)
    {offset : Option OutPoint} (fits : ∀ outpoint ∈ offset, outpoint.vout < 2 ^ 32) :
    ((Bound.included (Pebble.addressLocation.getBytes (search address offset).1)).above
        (Pebble.addressLocation.getBytes key) &&
      (Bound.excluded (Pebble.addressLocation.getBytes (search address offset).2)).below
        (Pebble.addressLocation.getBytes key)) = true ↔
      (key.address = address ∧ key ≠ lastOf address) ∧
        ∀ outpoint ∈ offset, outpoint.serialize ≤ key.location.outpoint.serialize := by
  have first : (search address offset).1.Ranged := by
    cases offset with
    | none => exact ⟨by simp [search], by simp [search]⟩
    | some outpoint => exact ⟨fits outpoint rfl, by simp [search, searchOffset]⟩
  have holder : (search address offset).1.address = address := by
    cases offset <;> rfl
  have stop : (search address offset).2 = lastOf address := by
    cases offset <;> rfl
  have zero : (search address offset).1.location.offset = 0 := by
    cases offset <;> rfl
  have start : ¬ key.location.outpoint.serialize <
        (search address offset).1.location.outpoint.serialize ↔
      ∀ outpoint ∈ offset, outpoint.serialize ≤ key.location.outpoint.serialize := by
    rw [not_lt]
    cases offset with
    | none =>
        constructor
        · intro _ outpoint impossible
          cases impossible
        · intro _
          exact first_le_serialize key.location.outpoint
    | some outpoint => simp [search, searchOffset]
  simp only [Bound.above, Bound.below, Bool.and_eq_true, decide_eq_true_eq]
  rw [← not_lt, Pebble.addressLocation_lt ranged first, stop, holder, zero]
  constructor
  · rintro ⟨notBelow, notAbove⟩
    have same : key.address = address := by
      rw [Pebble.addressLocation_lt ranged (last_ranged address)] at notAbove
      rcases notAbove with less | ⟨same, _⟩
      · exact absurd (Or.inl less) notBelow
      · exact same
    subst same
    refine ⟨⟨rfl, (lt_last_iff ranged).mp notAbove⟩, start.mp ?_⟩
    intro less
    exact notBelow (Or.inr ⟨rfl, Or.inl less⟩)
  · rintro ⟨⟨rfl, different⟩, after⟩
    refine ⟨?_, (lt_last_iff ranged).mpr different⟩
    rintro (impossible | ⟨_, less | ⟨_, less⟩⟩)
    · exact lt_irrefl _ impossible
    · exact start.mpr after less
    · omega

end AddressLocation

def addressTokenTransfers
    (iteratorCf : List (Bytes × Bytes) → IteratorMode → List (Bytes × Bytes))
    (value : Pebble TransferProtoDB) (store : List (Bytes × Bytes)) (scripthash : FullHash)
    (tick : OriginalTokenTick) (offset : Option OutPoint) (limit : Nat) :
    Except PebbleError (List TokenTransfer) := do
  let bounds := AddressLocation.search scripthash offset
  let items := RocksTable.range iteratorCf Pebble.addressLocation value store
    (.included bounds.1) (.excluded bounds.2) false
  let ofTick := items.filter fun item => item.toOption.all fun entry => entry.2.tick = tick
  let skip := if offset.isSome then 1 else 0
  let pulled := if limit = 0 then 0 else skip + limit
  let entries ← (ofTick.take pulled).mapM id
  .ok ((entries.map fun entry =>
    { amount := entry.2.amt, outpoint := entry.1.location.outpoint }).drop skip)

def tokenTransfersOf (value : Pebble TransferProtoDB) (store : List (Bytes × Bytes))
    (scripthash : FullHash) (tick : OriginalTokenTick) :
    List (AddressLocation × TransferProtoDB) :=
  (storedEntries Pebble.addressLocation value store).filter fun entry =>
    entry.1.address = scripthash ∧ entry.2.tick = tick

def shown (entry : AddressLocation × TransferProtoDB) : TokenTransfer :=
  { amount := entry.2.amt, outpoint := entry.1.location.outpoint }

def reachable (value : Pebble TransferProtoDB) (store : List (Bytes × Bytes))
    (scripthash : FullHash) (tick : OriginalTokenTick) : List TokenTransfer :=
  ((tokenTransfersOf value store scripthash tick).filter fun entry =>
    entry.1 ≠ AddressLocation.lastOf scripthash).map shown

section Pages

variable {iteratorCf : List (Bytes × Bytes) → IteratorMode → List (Bytes × Bytes)}
  {value : Pebble TransferProtoDB} {store : List (Bytes × Bytes)}
  {table : Table AddressLocation TransferProtoDB}

theorem filter_ok {K V : Type} (entries : List (K × V)) (keep : K × V → Bool) :
    ((entries.map (@Except.ok PebbleError (K × V))).filter fun item => item.toOption.all keep) =
      (entries.filter keep).map (@Except.ok PebbleError (K × V)) := by
  induction entries with
  | nil => rfl
  | cons entry rest ih =>
      rw [List.map_cons, List.filter_cons, List.filter_cons, ih]
      by_cases kept : keep entry = true <;> simp [Except.toOption, kept]

theorem addressTokenTransfers_eq (walks : WalksInOrder iteratorCf)
    (stored : Stored Pebble.addressLocation value store table)
    (ranged : ∀ key ∈ table.keys, key.Ranged)
    (survives : ReadsBack Pebble.addressLocation value table) (scripthash : FullHash)
    (tick : OriginalTokenTick) {offset : Option OutPoint}
    (fits : ∀ outpoint ∈ offset, outpoint.vout < 2 ^ 32) {limit : Nat} (positive : 0 < limit) :
    addressTokenTransfers iteratorCf value store scripthash tick offset limit =
      .ok ((((reachable value store scripthash tick).filter fun transfer =>
        offset.all fun outpoint => outpoint.serialize ≤ transfer.outpoint.serialize).drop
          (if offset.isSome then 1 else 0)).take limit) := by
  have scanned := stored.range_eq walks survives
    (.included (AddressLocation.search scripthash offset).1)
    (.excluded (AddressLocation.search scripthash offset).2) false
  rw [if_neg Bool.false_ne_true] at scanned
  simp only [addressTokenTransfers]
  rw [scanned, filter_ok, ← List.map_take, collect_ok, if_neg positive.ne']
  have listed : (((storedEntries Pebble.addressLocation value store).filter fun entry =>
      (RocksTable.encodeBound Pebble.addressLocation
          (.included (AddressLocation.search scripthash offset).1)).above
            (Pebble.addressLocation.getBytes entry.1) &&
        (RocksTable.encodeBound Pebble.addressLocation
          (.excluded (AddressLocation.search scripthash offset).2)).below
            (Pebble.addressLocation.getBytes entry.1)).filter fun entry =>
              entry.2.tick = tick).map shown =
      (reachable value store scripthash tick).filter fun transfer =>
        offset.all fun outpoint => outpoint.serialize ≤ transfer.outpoint.serialize := by
    rw [reachable, tokenTransfersOf, List.filter_map, List.filter_filter, List.filter_filter,
      List.filter_filter]
    congr 1
    apply List.filter_congr
    rintro ⟨key, proto⟩ member
    have present := (stored.mem_storedEntries survives).mp member
    have within := AddressLocation.within_search
      (ranged key (Table.mem_keys_iff.mpr ⟨proto, present⟩)) scripthash fits
    rw [Bool.eq_iff_iff]
    simp only [RocksTable.encodeBound] at within ⊢
    rw [Bool.and_eq_true, within]
    simp only [shown, Function.comp_apply, Bool.and_eq_true, decide_eq_true_eq, Option.all_eq_true]
    constructor
    · rintro ⟨same, ⟨holder, different⟩, after⟩
      exact ⟨⟨fun outpoint given => decide_eq_true (after outpoint given), different⟩, holder, same⟩
    · rintro ⟨⟨after, different⟩, holder, same⟩
      exact ⟨same, ⟨holder, different⟩, fun outpoint given =>
        of_decide_eq_true (after outpoint given)⟩
  have shape : ∀ entries : List (AddressLocation × TransferProtoDB), ∀ skip : Nat,
      ((entries.take (skip + limit)).map shown).drop skip =
        ((entries.map shown).drop skip).take limit := by
    intro entries skip
    rw [List.map_take, List.drop_take, Nat.add_sub_cancel_left]
  rw [← listed, ← shape]
  rfl

theorem mem_tokenTransfersOf (stored : Stored Pebble.addressLocation value store table)
    (survives : ReadsBack Pebble.addressLocation value table) {scripthash : FullHash}
    {tick : OriginalTokenTick} {key : AddressLocation} {proto : TransferProtoDB} :
    (key, proto) ∈ tokenTransfersOf value store scripthash tick ↔
      table.get key = some proto ∧ key.address = scripthash ∧ proto.tick = tick := by
  rw [tokenTransfersOf, List.mem_filter, stored.mem_storedEntries survives, decide_eq_true_eq]

theorem tokenTransfersOf_ranged (stored : Stored Pebble.addressLocation value store table)
    (ranged : ∀ key ∈ table.keys, key.Ranged)
    (survives : ReadsBack Pebble.addressLocation value table) {scripthash : FullHash}
    {tick : OriginalTokenTick} {entry : AddressLocation × TransferProtoDB}
    (listed : entry ∈ tokenTransfersOf value store scripthash tick) :
    entry.1.Ranged ∧ entry.1.address = scripthash := by
  have found :=
    (@mem_tokenTransfersOf _ _ _ stored survives scripthash tick entry.1 entry.2).mp listed
  exact ⟨ranged _ (Table.mem_keys_iff.mpr ⟨_, found.1⟩), found.2.1⟩

def rankOf (transfer : TokenTransfer) : Bytes := transfer.outpoint.serialize

theorem reachable_sorted (stored : Stored Pebble.addressLocation value store table)
    (ranged : ∀ key ∈ table.keys, key.Ranged)
    (survives : ReadsBack Pebble.addressLocation value table) (scripthash : FullHash)
    (tick : OriginalTokenTick) :
    (reachable value store scripthash tick).Pairwise fun earlier later =>
      rankOf earlier ≤ rankOf later := by
  have sorted : (tokenTransfersOf value store scripthash tick).Pairwise fun earlier later =>
      Pebble.addressLocation.getBytes earlier.1 < Pebble.addressLocation.getBytes later.1 :=
    (stored.storedEntries_sorted survives).filter _
  rw [reachable, List.pairwise_map]
  refine List.Pairwise.filter _ (sorted.imp_of_mem ?_)
  intro earlier later member other order
  have first := tokenTransfersOf_ranged stored ranged survives member
  have second := tokenTransfersOf_ranged stored ranged survives other
  rw [Pebble.addressLocation_lt first.1 second.1, first.2, second.2] at order
  rcases order with impossible | ⟨_, less | ⟨same, _⟩⟩
  · exact absurd impossible (lt_irrefl _)
  · exact le_of_lt less
  · simp only [rankOf, shown, same]
    exact le_refl _

/-- A client that asks for page after page of `limit` transfers ends with every transfer of the
address and the tick, each once. -/
def PagesComplete (iteratorCf : List (Bytes × Bytes) → IteratorMode → List (Bytes × Bytes))
    (value : Pebble TransferProtoDB) (store : List (Bytes × Bytes)) (scripthash : FullHash)
    (tick : OriginalTokenTick) (limit : Nat) : Prop :=
  ∃ read,
    Reads (fun offset => addressTokenTransfers iteratorCf value store scripthash tick offset limit)
      TokenTransfer.outpoint none read ∧
    read.Perm ((tokenTransfersOf value store scripthash tick).map shown)

def EndsOutpoints (limit : Nat) (transfers : List (AddressLocation × TransferProtoDB)) : Prop :=
  ∀ front last rest, transfers = front ++ last :: rest →
    limit ∣ (front ++ [last]).length ∨ rest = [] →
      ∀ other ∈ front, other.1.location.outpoint ≠ last.1.location.outpoint

theorem aligned_iff (stored : Stored Pebble.addressLocation value store table)
    (ranged : ∀ key ∈ table.keys, key.Ranged)
    (survives : ReadsBack Pebble.addressLocation value table) {scripthash : FullHash}
    {tick : OriginalTokenTick} {limit : Nat} :
    Aligned limit rankOf ((tokenTransfersOf value store scripthash tick).map shown) ↔
      EndsOutpoints limit (tokenTransfersOf value store scripthash tick) := by
  rw [aligned_map]
  have fits : ∀ entry ∈ tokenTransfersOf value store scripthash tick,
      entry.1.location.outpoint.vout < 2 ^ 32 := fun entry listed =>
    (tokenTransfersOf_ranged stored ranged survives listed).1.vout
  constructor
  · intro aligned front last rest split ends other listed same
    apply aligned front last rest split ends other listed
    simp only [Function.comp_apply, rankOf, shown, same]
  · intro first front last rest split ends other listed same
    apply first front last rest split ends other listed
    apply OutPoint.serialize_inj _ _ same
    · exact fits other (by rw [split]; simp [listed])
    · exact fits last (by rw [split]; simp)

theorem last_once {scripthash : FullHash}
    {tick : OriginalTokenTick} {read : List TokenTransfer} {proto : TransferProtoDB}
    (same : read.Perm ((tokenTransfersOf value store scripthash tick).map shown))
    (inside : ∀ transfer ∈ read, transfer ∈ reachable value store scripthash tick)
    (once : (read.filter fun transfer =>
      rankOf (shown (AddressLocation.lastOf scripthash, proto)) ≤ rankOf transfer).length ≤ 1)
    (last : (AddressLocation.lastOf scripthash, proto) ∈
      tokenTransfersOf value store scripthash tick) : False := by
  let top := rankOf (shown (AddressLocation.lastOf scripthash, proto))
  have few : ((tokenTransfersOf value store scripthash tick).filter fun entry =>
      top ≤ rankOf (shown entry)).length ≤ 1 := by
    have counted := (same.filter fun transfer => decide (top ≤ rankOf transfer)).length_eq
    rw [List.filter_map, List.length_map] at counted
    rw [← Function.comp_def (fun transfer => decide (top ≤ rankOf transfer)) shown, ← counted]
    exact once
  have only : ∀ entry ∈ tokenTransfersOf value store scripthash tick, top ≤ rankOf (shown entry) →
      entry = (AddressLocation.lastOf scripthash, proto) := by
    intro entry listed high
    have first : entry ∈ (tokenTransfersOf value store scripthash tick).filter fun entry =>
        top ≤ rankOf (shown entry) := List.mem_filter.mpr ⟨listed, decide_eq_true high⟩
    have second : (AddressLocation.lastOf scripthash, proto) ∈
        (tokenTransfersOf value store scripthash tick).filter fun entry =>
          top ≤ rankOf (shown entry) := List.mem_filter.mpr ⟨last, decide_eq_true (le_refl top)⟩
    generalize ((tokenTransfersOf value store scripthash tick).filter fun entry =>
      top ≤ rankOf (shown entry)) = kept at few first second
    cases kept with
    | nil => cases first
    | cons head tail =>
        obtain rfl : tail = [] := List.length_eq_zero_iff.mp (by
          rw [List.length_cons] at few
          omega)
        rw [List.mem_singleton.mp first, List.mem_singleton.mp second]
  have listed : shown (AddressLocation.lastOf scripthash, proto) ∈ read :=
    same.mem_iff.mpr (List.mem_map.mpr ⟨_, last, rfl⟩)
  obtain ⟨entry, member, equal⟩ := List.mem_map.mp (inside _ listed)
  obtain ⟨found, different⟩ := List.mem_filter.mp member
  have unique := only entry found (le_of_eq (by rw [equal]))
  rw [unique] at different
  exact absurd rfl (of_decide_eq_true different)

/-- The pages of a client hold every transfer once exactly when none is stored at the last key of
the address and every page ends with the first transfer of its outpoint. -/
theorem transfers_paged_iff (walks : WalksInOrder iteratorCf)
    (stored : Stored Pebble.addressLocation value store table)
    (ranged : ∀ key ∈ table.keys, key.Ranged)
    (survives : ∀ key proto, table.get key = some proto →
      value.fromBytes (value.getBytes proto) = .ok proto)
    (scripthash : FullHash) (tick : OriginalTokenTick) (limit : Nat) (positive : 0 < limit) :
    (∀ key proto, (key, proto) ∈ tokenTransfersOf value store scripthash tick ↔
      table.get key = some proto ∧ key.address = scripthash ∧ proto.tick = tick) ∧
    (PagesComplete iteratorCf value store scripthash tick limit ↔
      (∀ proto, (AddressLocation.lastOf scripthash, proto) ∉
          tokenTransfersOf value store scripthash tick) ∧
        EndsOutpoints limit (tokenTransfersOf value store scripthash tick)) := by
  have reads := Store.readsBack ranged survives
  refine ⟨fun _ _ => mem_tokenTransfersOf stored reads, ?_⟩
  have sorted := reachable_sorted stored ranged reads scripthash tick
  have member : ∀ transfer ∈ reachable value store scripthash tick,
      transfer.outpoint.vout < 2 ^ 32 := by
    intro transfer listed
    obtain ⟨entry, found, rfl⟩ := List.mem_map.mp listed
    exact (tokenTransfersOf_ranged stored ranged reads (List.mem_of_mem_filter found)).1.vout
  have opens : addressTokenTransfers iteratorCf value store scripthash tick none limit =
      .ok ((reachable value store scripthash tick).take limit) := by
    rw [addressTokenTransfers_eq walks stored ranged reads scripthash tick (by simp) positive]
    simp
  have continues : ∀ last ∈ reachable value store scripthash tick,
      addressTokenTransfers iteratorCf value store scripthash tick (some last.outpoint) limit =
        .ok ((behind rankOf (reachable value store scripthash tick) last).take limit) := by
    intro last listed
    rw [addressTokenTransfers_eq walks stored ranged reads scripthash tick
      (by simpa using member last listed) positive]
    simp only [behind, rankOf, Option.isSome_some, if_true, Option.all_some]
    congr 3
  have whole : (Aligned limit rankOf (reachable value store scripthash tick) →
      Reads (fun offset =>
        addressTokenTransfers iteratorCf value store scripthash tick offset limit)
          TokenTransfer.outpoint none (reachable value store scripthash tick)) ∧
      ∀ read, Reads (fun offset =>
        addressTokenTransfers iteratorCf value store scripthash tick offset limit)
          TokenTransfer.outpoint none read →
        read.length = (reachable value store scripthash tick).length →
          Aligned limit rankOf (reachable value store scripthash tick) :=
    reads_iff_aligned positive sorted opens continues
  constructor
  · rintro ⟨read, pages, same⟩
    have absent : ∀ proto, (AddressLocation.lastOf scripthash, proto) ∉
        tokenTransfersOf value store scripthash tick := by
      intro proto last
      have top : ∀ transfer ∈ reachable value store scripthash tick,
          rankOf transfer ≤ rankOf (shown (AddressLocation.lastOf scripthash, proto)) :=
        fun transfer _ => AddressLocation.serialize_le_last transfer.outpoint scripthash
      have once := pages.top_once positive sorted continues (List.nil_append _).symm opens top
      have inside := pages.mem continues (fun _ listed => listed) opens
      exact last_once same inside once last
    have all : reachable value store scripthash tick =
        (tokenTransfersOf value store scripthash tick).map shown := by
      rw [reachable, List.filter_eq_self.mpr]
      rintro ⟨key, proto⟩ listed
      apply decide_eq_true
      rintro rfl
      exact absent proto listed
    refine ⟨absent, ?_⟩
    have aligned := whole.2 read pages (by rw [all]; exact same.length_eq)
    rw [all] at aligned
    exact (aligned_iff stored ranged reads).mp aligned
  · rintro ⟨absent, ends⟩
    have all : reachable value store scripthash tick =
        (tokenTransfersOf value store scripthash tick).map shown := by
      rw [reachable, List.filter_eq_self.mpr]
      rintro ⟨key, proto⟩ listed
      apply decide_eq_true
      rintro rfl
      exact absent proto listed
    have aligned := (aligned_iff stored ranged reads).mpr ends
    rw [← all] at aligned
    refine ⟨_, whole.1 aligned, ?_⟩
    rw [all]

end Pages

theorem pairs_complete :
    PagesComplete RocksTable.placed Sample.transferProto (Sample.transferStore Sample.transfers) 7
      (Sample.transferOf 0).tick 2 := by
  have sorted : Sample.transfers.Pairwise fun earlier later =>
      Pebble.addressLocation.getBytes earlier.1 < Pebble.addressLocation.getBytes later.1 := by
    decide +kernel
  have shape : tokenTransfersOf Sample.transferProto (Sample.transferStore Sample.transfers) 7
      (Sample.transferOf 0).tick = Sample.transfers := by
    decide +kernel
  have stored : Stored Pebble.addressLocation Sample.transferProto
      (Sample.transferStore Sample.transfers)
      ((∅ : Table AddressLocation TransferProtoDB).extendList Sample.transfers) :=
    Stored.listed sorted
  refine (transfers_paged_iff RocksTable.placed_walks stored
    (Sample.table_ranged Sample.transfers (by decide))
    (Sample.table_survives Sample.transfers sorted (by decide +kernel)) 7
    (Sample.transferOf 0).tick 2 (by decide)).2.mpr ?_
  rw [shape]
  constructor
  · intro proto listed
    have keys : AddressLocation.lastOf 7 ∈ Sample.transfers.map Prod.fst :=
      List.mem_map.mpr ⟨_, listed, rfl⟩
    exact absurd keys (by decide)
  · intro front last rest split ends
    rcases front with _ | ⟨first, _ | ⟨second, _ | ⟨third, _ | ⟨fourth, more⟩⟩⟩⟩
    · intro other impossible
      cases impossible
    · cases split
      decide
    · cases split
      rcases ends with divides | none
      · exact absurd divides (by decide)
      · cases none
    · cases split
      decide
    · have length := congrArg List.length split
      simp [Sample.transfers] at length

/-- Two transfers on one output, one on a page: the second is read for ever. -/
theorem pair_repeats :
    ¬ PagesComplete RocksTable.placed Sample.transferProto
      (Sample.transferStore [(Sample.placeOf 1 0, Sample.transferOf 2),
        (Sample.placeOf 1 546, Sample.transferOf 3)]) 7 (Sample.transferOf 0).tick 1 := by
  have opens : addressTokenTransfers RocksTable.placed Sample.transferProto
      (Sample.transferStore [(Sample.placeOf 1 0, Sample.transferOf 2),
        (Sample.placeOf 1 546, Sample.transferOf 3)]) 7 (Sample.transferOf 0).tick none 1 =
      .ok [{ amount := 2, outpoint := { txid := 5, vout := 1 } }] := by
    decide +kernel
  have repeats : addressTokenTransfers RocksTable.placed Sample.transferProto
      (Sample.transferStore [(Sample.placeOf 1 0, Sample.transferOf 2),
        (Sample.placeOf 1 546, Sample.transferOf 3)]) 7 (Sample.transferOf 0).tick
        (some { txid := 5, vout := 1 }) 1 =
      .ok [{ amount := 3, outpoint := { txid := 5, vout := 1 } }] := by
    decide +kernel
  have endless : ∀ offset read, Reads (fun offset => addressTokenTransfers RocksTable.placed
      Sample.transferProto (Sample.transferStore [(Sample.placeOf 1 0, Sample.transferOf 2),
        (Sample.placeOf 1 546, Sample.transferOf 3)]) 7 (Sample.transferOf 0).tick offset 1)
      TokenTransfer.outpoint offset read → offset ≠ some { txid := 5, vout := 1 } := by
    intro offset read reads
    induction reads with
    | stop empty =>
        rintro rfl
        rw [repeats] at empty
        cases empty
    | next page ends _ ih =>
        rintro rfl
        rw [repeats] at page
        cases page
        cases ends
        exact ih rfl
  rintro ⟨read, reads, _⟩
  cases reads with
  | stop empty =>
      rw [opens] at empty
      cases empty
  | next page ends later =>
      rw [opens] at page
      cases page
      cases ends
      exact endless _ _ later rfl

end WjkIndexer
