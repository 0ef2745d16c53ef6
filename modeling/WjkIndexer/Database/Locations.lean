import WjkIndexer.Database.Range

/-!
The keys of the stored transfers: an address, an outpoint and an offset. The transfers of an
outpoint are one interval of the store.
-/

namespace WjkIndexer

open FiniteTable ByteString SortedStore

namespace OutPoint

/-- The consensus encoding: the hash and the number of the output, its lowest byte first. -/
def serialize (outpoint : OutPoint) : Bytes :=
  beBytes 32 outpoint.txid.toNat ++ leBytes 4 outpoint.vout

def deserialize (bytes : Bytes) : Except PebbleError OutPoint :=
  if bytes.length = 32 + 4 then
    .ok {
      txid := BitVec.ofNat 256 (ofBeBytes (bytes.take 32))
      vout := ofLeBytes (bytes.drop 32) }
  else .error .invalid

@[simp] theorem length_serialize (outpoint : OutPoint) : outpoint.serialize.length = 36 := by
  simp [serialize]

theorem deserialize_serialize {outpoint : OutPoint} (fits : outpoint.vout < 2 ^ 32) :
    deserialize outpoint.serialize = .ok outpoint := by
  have size : (beBytes 32 outpoint.txid.toNat).length = 32 := length_beBytes _ _
  have hash : BitVec.ofNat 256 (ofBeBytes (beBytes 32 outpoint.txid.toNat)) = outpoint.txid := by
    rw [ofBeBytes_beBytes (lt_of_lt_of_eq outpoint.txid.isLt (by norm_num)), BitVec.ofNat_toNat,
      BitVec.setWidth_eq]
  have number : ofLeBytes (leBytes 4 outpoint.vout) = outpoint.vout :=
    ofLeBytes_leBytes (lt_of_lt_of_eq fits (by norm_num))
  rw [deserialize, if_pos (length_serialize outpoint), serialize, List.take_left' size,
    List.drop_left' size, hash, number]

theorem serialize_inj {first second : OutPoint} (fits : first.vout < 2 ^ 32)
    (bound : second.vout < 2 ^ 32) (same : first.serialize = second.serialize) :
    first = second := by
  have read := deserialize_serialize fits
  rw [same, deserialize_serialize bound] at read
  cases read
  rfl

end OutPoint

namespace Pebble

def addressLocation : Pebble AddressLocation where
  getBytes value :=
    beBytes 32 value.address.toNat ++ value.location.outpoint.serialize ++
      beBytes 8 value.location.offset
  fromBytes bytes := do
    let address ← tryInto 32 (← slice bytes 0 32)
    let outpoint ← OutPoint.deserialize (← slice bytes 32 (32 + 36))
    let offset ← tryInto 8 (← slice bytes (32 + 32 + 4) bytes.length)
    .ok {
      address := BitVec.ofNat 256 (ofBeBytes address.1)
      location := { outpoint := outpoint, offset := ofBeBytes offset.1 } }

end Pebble

/-- The numbers of a key fit into their types. -/
structure AddressLocation.Ranged (key : AddressLocation) : Prop where
  vout : key.location.outpoint.vout < 2 ^ 32
  offset : key.location.offset < 2 ^ 64

namespace Pebble

theorem addressLocation_fromBytes {key : AddressLocation} (ranged : key.Ranged) :
    addressLocation.fromBytes (addressLocation.getBytes key) = .ok key := by
  obtain ⟨address, ⟨outpoint, offset⟩⟩ := key
  have size := OutPoint.length_serialize outpoint
  have length : (beBytes 32 address.toNat ++ outpoint.serialize ++ beBytes 8 offset).length =
      76 := by
    simp
  have first : slice (beBytes 32 address.toNat ++ outpoint.serialize ++ beBytes 8 offset) 0 32 =
      .ok (beBytes 32 address.toNat) := by
    have cut := slice_append [] (beBytes 32 address.toNat)
      (outpoint.serialize ++ beBytes 8 offset)
    simpa using cut
  have second : slice (beBytes 32 address.toNat ++ outpoint.serialize ++ beBytes 8 offset) 32 68 =
      .ok outpoint.serialize := by
    have cut := slice_append (beBytes 32 address.toNat) outpoint.serialize (beBytes 8 offset)
    simpa using cut
  have third : slice (beBytes 32 address.toNat ++ outpoint.serialize ++ beBytes 8 offset) 68 76 =
      .ok (beBytes 8 offset) := by
    have cut := slice_append (beBytes 32 address.toNat ++ outpoint.serialize)
      (beBytes 8 offset) []
    simpa using cut
  have hash : BitVec.ofNat 256 (ofBeBytes (beBytes 32 address.toNat)) = address := by
    rw [ofBeBytes_beBytes (lt_of_lt_of_eq address.isLt (by norm_num)), BitVec.ofNat_toNat,
      BitVec.setWidth_eq]
  have number : ofBeBytes (beBytes 8 offset) = offset :=
    ofBeBytes_beBytes (lt_of_lt_of_eq ranged.offset (by norm_num))
  simp only [addressLocation, length, first, second, third, tryInto_ok (length_beBytes _ _),
    OutPoint.deserialize_serialize ranged.vout, Nat.reduceAdd, bind, Except.bind, hash, number]

theorem addressLocation_lt {first second : AddressLocation} (ranged : first.Ranged)
    (bounded : second.Ranged) :
    addressLocation.getBytes first < addressLocation.getBytes second ↔
      beBytes 32 first.address.toNat < beBytes 32 second.address.toNat ∨
        first.address = second.address ∧
          (first.location.outpoint.serialize < second.location.outpoint.serialize ∨
            first.location.outpoint = second.location.outpoint ∧
              first.location.offset < second.location.offset) := by
  have addresses : beBytes 32 first.address.toNat = beBytes 32 second.address.toNat ↔
      first.address = second.address := by
    constructor
    · intro same
      exact BitVec.toNat_inj.mp (beBytes_inj (lt_of_lt_of_eq first.address.isLt (by norm_num))
        (lt_of_lt_of_eq second.address.isLt (by norm_num)) same)
    · intro same
      rw [same]
  have outpoints : first.location.outpoint.serialize = second.location.outpoint.serialize ↔
      first.location.outpoint = second.location.outpoint :=
    ⟨OutPoint.serialize_inj ranged.vout bounded.vout, congrArg OutPoint.serialize⟩
  simp only [addressLocation, List.append_assoc]
  rw [append_lt_append (by simp), append_lt_append (by simp), addresses, outpoints,
    beBytes_lt (lt_of_lt_of_eq ranged.offset (by norm_num))
      (lt_of_lt_of_eq bounded.offset (by norm_num))]

end Pebble

namespace AddressLocation

def searchWithOffset (address : FullHash) (outpoint : OutPoint) :
    AddressLocation × AddressLocation :=
  ({ address := address, location := { outpoint := outpoint, offset := 0 } },
    { address := address, location := { outpoint := outpoint, offset := 2 ^ 64 - 1 } })

theorem within_outpoint {key : AddressLocation} (ranged : key.Ranged) (address : FullHash)
    {outpoint : OutPoint} (fits : outpoint.vout < 2 ^ 32) :
    ((Bound.included (Pebble.addressLocation.getBytes (searchWithOffset address outpoint).1)).above
        (Pebble.addressLocation.getBytes key) &&
      (Bound.included (Pebble.addressLocation.getBytes (searchWithOffset address outpoint).2)).below
        (Pebble.addressLocation.getBytes key)) = true ↔
      key.address = address ∧ key.location.outpoint = outpoint := by
  have first : (searchWithOffset address outpoint).1.Ranged := ⟨fits, by simp [searchWithOffset]⟩
  have last : (searchWithOffset address outpoint).2.Ranged := ⟨fits, by simp [searchWithOffset]⟩
  have top : key.location.offset ≤ 2 ^ 64 - 1 := by
    have bounded := ranged.offset
    omega
  simp only [Bound.above, Bound.below, Bool.and_eq_true, decide_eq_true_eq]
  rw [← not_lt, ← not_lt, Pebble.addressLocation_lt ranged first,
    Pebble.addressLocation_lt last ranged]
  simp only [searchWithOffset]
  constructor
  · rintro ⟨notBelow, notAbove⟩
    rcases lt_trichotomy (beBytes 32 key.address.toNat) (beBytes 32 address.toNat) with
      less | same | more
    · exact absurd (Or.inl less) notBelow
    · have addresses : key.address = address :=
        BitVec.toNat_inj.mp (beBytes_inj (lt_of_lt_of_eq key.address.isLt (by norm_num))
          (lt_of_lt_of_eq address.isLt (by norm_num)) same)
      refine ⟨addresses, ?_⟩
      rcases lt_trichotomy key.location.outpoint.serialize outpoint.serialize with
        less | equal | more
      · exact absurd (Or.inr ⟨addresses, Or.inl less⟩) notBelow
      · exact OutPoint.serialize_inj ranged.vout fits equal
      · exact absurd (Or.inr ⟨addresses.symm, Or.inl more⟩) notAbove
    · exact absurd (Or.inl more) notAbove
  · rintro ⟨rfl, rfl⟩
    constructor
    · rintro (impossible | ⟨_, impossible | ⟨_, impossible⟩⟩)
      · exact lt_irrefl _ impossible
      · exact lt_irrefl _ impossible
      · omega
    · rintro (impossible | ⟨_, impossible | ⟨_, impossible⟩⟩)
      · exact lt_irrefl _ impossible
      · exact lt_irrefl _ impossible
      · omega

end AddressLocation

theorem mapM_reads {α β ε : Type} {elements : List α} {read : α → Except ε β} {result : α → β}
    (reads : ∀ element ∈ elements, read element = .ok (result element)) :
    elements.mapM read = .ok (elements.map result) := by
  induction elements with
  | nil => rfl
  | cons first rest ih =>
      rw [List.mapM_cons, reads first List.mem_cons_self,
        ih fun other listed => reads other (List.mem_cons_of_mem _ listed)]
      rfl

theorem collect_ok {α ε : Type} (elements : List α) :
    (elements.map (@Except.ok ε α)).mapM id = .ok elements := by
  induction elements with
  | nil => rfl
  | cons first rest ih =>
      rw [List.map_cons, List.mapM_cons, ih]
      rfl

namespace Store

variable {iteratorCf : List (Bytes × Bytes) → IteratorMode → List (Bytes × Bytes)}
  {value : Pebble TransferProtoDB} {store : List (Bytes × Bytes)}
  {table : Table AddressLocation TransferProtoDB}

def loadTransfers (iteratorCf : List (Bytes × Bytes) → IteratorMode → List (Bytes × Bytes))
    (value : Pebble TransferProtoDB) (store : List (Bytes × Bytes)) (keys : List AddressOutPoint) :
    Except PebbleError (List (Location × FullHash × TransferProtoDB)) := do
  let ranges ← keys.mapM fun key =>
    let bounds := AddressLocation.searchWithOffset key.address key.outpoint
    (RocksTable.range iteratorCf Pebble.addressLocation value store (.included bounds.1)
      (.included bounds.2) false).mapM id
  .ok (ranges.flatten.map fun entry => (entry.1.location, entry.1.address, entry.2))

def atOutpoint (value : Pebble TransferProtoDB) (store : List (Bytes × Bytes))
    (key : AddressOutPoint) : List (AddressLocation × TransferProtoDB) :=
  (storedEntries Pebble.addressLocation value store).filter fun entry =>
    entry.1.address = key.address ∧ entry.1.location.outpoint = key.outpoint

theorem readsBack (ranged : ∀ key ∈ table.keys, key.Ranged)
    (survives : ∀ key proto, table.get key = some proto →
      value.fromBytes (value.getBytes proto) = .ok proto) :
    ReadsBack Pebble.addressLocation value table where
  keys key member := Pebble.addressLocation_fromBytes (ranged key member)
  values := survives

theorem range_outpoint (walks : WalksInOrder iteratorCf)
    (stored : Stored Pebble.addressLocation value store table)
    (ranged : ∀ key ∈ table.keys, key.Ranged)
    (survives : ReadsBack Pebble.addressLocation value table) {key : AddressOutPoint}
    (fits : key.outpoint.vout < 2 ^ 32) :
    (RocksTable.range iteratorCf Pebble.addressLocation value store
      (.included (AddressLocation.searchWithOffset key.address key.outpoint).1)
      (.included (AddressLocation.searchWithOffset key.address key.outpoint).2) false).mapM id =
      .ok (atOutpoint value store key) := by
  rw [stored.range_eq walks survives, if_neg Bool.false_ne_true, collect_ok]
  congr 1
  apply List.filter_congr
  rintro ⟨query, proto⟩ listed
  have present := (stored.mem_storedEntries survives).mp listed
  rw [Bool.eq_iff_iff, decide_eq_true_eq]
  exact AddressLocation.within_outpoint
    (ranged query (Table.mem_keys_iff.mpr ⟨proto, present⟩)) key.address fits

theorem loadTransfers_eq (walks : WalksInOrder iteratorCf)
    (stored : Stored Pebble.addressLocation value store table)
    (ranged : ∀ key ∈ table.keys, key.Ranged)
    (survives : ReadsBack Pebble.addressLocation value table) {keys : List AddressOutPoint}
    (fits : ∀ key ∈ keys, key.outpoint.vout < 2 ^ 32) :
    loadTransfers iteratorCf value store keys =
      .ok ((keys.flatMap (atOutpoint value store)).map fun entry =>
        (entry.1.location, entry.1.address, entry.2)) := by
  have read := @mapM_reads _ _ PebbleError keys _ (atOutpoint value store) fun key listed =>
    range_outpoint walks stored ranged survives (fits key listed)
  rw [loadTransfers]
  dsimp only
  rw [read]
  rfl

theorem mem_loaded (stored : Stored Pebble.addressLocation value store table)
    (survives : ReadsBack Pebble.addressLocation value table) {keys : List AddressOutPoint}
    {location : Location} {address : FullHash} {proto : TransferProtoDB} :
    (location, address, proto) ∈ ((keys.flatMap (atOutpoint value store)).map fun entry =>
        (entry.1.location, entry.1.address, entry.2)) ↔
      ⟨address, location.outpoint⟩ ∈ keys ∧ table.get ⟨address, location⟩ = some proto := by
  simp only [List.mem_map, List.mem_flatMap, atOutpoint, List.mem_filter, decide_eq_true_eq]
  constructor
  · rintro ⟨⟨⟨holder, place⟩, found⟩, ⟨⟨owner, outpoint⟩, member, listed, inAddress, inOutpoint⟩,
      same⟩
    cases same
    dsimp only at inAddress inOutpoint
    rw [inAddress, inOutpoint]
    rw [inAddress] at listed
    exact ⟨member, (stored.mem_storedEntries survives).mp listed⟩
  · rintro ⟨member, present⟩
    exact ⟨(⟨address, location⟩, proto), ⟨⟨address, location.outpoint⟩, member,
      (stored.mem_storedEntries survives).mpr present, rfl, rfl⟩, rfl⟩

theorem loaded_once (stored : Stored Pebble.addressLocation value store table)
    (survives : ReadsBack Pebble.addressLocation value table) {keys : List AddressOutPoint}
    (distinct : keys.Nodup) :
    (((keys.flatMap (atOutpoint value store)).map fun entry =>
        (entry.1.location, entry.1.address, entry.2)).map fun item =>
          (item.1, item.2.1)).Nodup := by
  have keyed : ((keys.flatMap (atOutpoint value store)).map Prod.fst).Nodup := by
    rw [List.map_flatMap, List.nodup_flatMap]
    constructor
    · intro key _
      exact Stored.keys_nodup ((stored.storedEntries_sorted survives).filter fun entry =>
        decide (entry.1.address = key.address ∧ entry.1.location.outpoint = key.outpoint))
    · refine distinct.imp ?_
      intro first second different entry member other
      simp only [List.mem_map, atOutpoint, List.mem_filter, decide_eq_true_eq] at member other
      obtain ⟨_, ⟨_, address, outpoint⟩, rfl⟩ := member
      obtain ⟨_, ⟨_, otherAddress, otherOutpoint⟩, same⟩ := other
      rw [same] at otherAddress otherOutpoint
      apply different
      cases first
      cases second
      simp_all
  rw [List.map_map]
  have shape : (keys.flatMap (atOutpoint value store)).map ((fun item => (item.1, item.2.1)) ∘
        fun entry : AddressLocation × TransferProtoDB =>
          (entry.1.location, entry.1.address, entry.2)) =
      ((keys.flatMap (atOutpoint value store)).map Prod.fst).map fun key =>
        (key.location, key.address) := by
    rw [List.map_map]
    rfl
  rw [shape]
  refine keyed.map ?_
  rintro ⟨address, location⟩ ⟨holder, place⟩ same
  cases same
  rfl

/-- The scan of the store refines the table that the cache is loaded from. -/
theorem loadTransfers_refines {db : DB} (walks : WalksInOrder iteratorCf)
    (stored : Stored Pebble.addressLocation value store db.addressLocationToTransfer)
    (ranged : ∀ key ∈ db.addressLocationToTransfer.keys, key.Ranged)
    (survives : ReadsBack Pebble.addressLocation value db.addressLocationToTransfer)
    {keys : Finset AddressOutPoint} (fits : ∀ key ∈ keys, key.outpoint.vout < 2 ^ 32)
    {iterated : List AddressOutPoint} (distinct : iterated.Nodup)
    (same : ∀ key, key ∈ iterated ↔ key ∈ keys) :
    ∃ loaded, loadTransfers iteratorCf value store iterated = .ok loaded ∧
      (∅ : Table AddressLocation TransferProtoDB).extendList
          (loaded.map fun item => (⟨item.2.1, item.1⟩, item.2.2)) = db.loadTransfers keys := by
  refine ⟨_, loadTransfers_eq walks stored ranged survives
    (fun key listed => fits key ((same key).mp listed)), ?_⟩
  have once := loaded_once stored survives distinct
  have members : ∀ location address proto, _ := fun location address proto =>
    @mem_loaded _ _ _ stored survives iterated location address proto
  generalize (iterated.flatMap (atOutpoint value store)).map (fun entry =>
    (entry.1.location, entry.1.address, entry.2)) = loaded at once members
  have keyed : ((loaded.map fun item =>
      ((⟨item.2.1, item.1⟩, item.2.2) : AddressLocation × TransferProtoDB)).map
        Prod.fst).Nodup := by
    rw [List.map_map]
    have shape : loaded.map (Prod.fst ∘ fun item =>
        ((⟨item.2.1, item.1⟩, item.2.2) : AddressLocation × TransferProtoDB)) =
        (loaded.map fun item => (item.1, item.2.1)).map fun item =>
          (⟨item.2, item.1⟩ : AddressLocation) := by
      rw [List.map_map]
      rfl
    rw [shape]
    refine once.map ?_
    rintro ⟨location, address⟩ ⟨other, holder⟩ equal
    cases equal
    rfl
  apply Table.ext
  rintro ⟨address, location⟩
  apply Option.ext
  intro proto
  rw [Table.get_extendList_iff keyed, DB.get_loadTransfers]
  have listed : (⟨⟨address, location⟩, proto⟩ : AddressLocation × TransferProtoDB) ∈
      loaded.map (fun item => (⟨item.2.1, item.1⟩, item.2.2)) ↔
        (location, address, proto) ∈ loaded := by
    rw [List.mem_map]
    constructor
    · rintro ⟨⟨place, holder, found⟩, member, equal⟩
      cases equal
      exact member
    · intro member
      exact ⟨_, member, rfl⟩
  rw [listed, members, same]
  split
  · rename_i inside
    simp only [inside, true_and]
  · rename_i outside
    simp only [outside, false_and, reduceCtorEq]

/-- Loading yields the stored transfers of the addresses and outpoints in a set, each once: keys
are read back, and between the ends of a scan there is nothing but its address and outpoint. -/
theorem loadTransfers_exact (walks : WalksInOrder iteratorCf)
    (stored : Stored Pebble.addressLocation value store table)
    (ranged : ∀ key ∈ table.keys, key.Ranged)
    (survives : ∀ key proto, table.get key = some proto →
      value.fromBytes (value.getBytes proto) = .ok proto)
    (keys : Finset AddressOutPoint) (fits : ∀ key ∈ keys, key.outpoint.vout < 2 ^ 32)
    (iterated : List AddressOutPoint) (distinct : iterated.Nodup)
    (same : ∀ key, key ∈ iterated ↔ key ∈ keys) :
    (∀ key : AddressLocation, key.Ranged →
      Pebble.addressLocation.fromBytes (Pebble.addressLocation.getBytes key) = .ok key) ∧
    (∀ query ∈ keys, ∀ key : AddressLocation, key.Ranged →
      (Pebble.addressLocation.getBytes
            (AddressLocation.searchWithOffset query.address query.outpoint).1 ≤
          Pebble.addressLocation.getBytes key ∧
        Pebble.addressLocation.getBytes key ≤ Pebble.addressLocation.getBytes
            (AddressLocation.searchWithOffset query.address query.outpoint).2 ↔
        key.address = query.address ∧ key.location.outpoint = query.outpoint)) ∧
    ∃ loaded, loadTransfers iteratorCf value store iterated = .ok loaded ∧
      (loaded.map fun item => (item.1, item.2.1)).Nodup ∧
      ∀ location address proto, (location, address, proto) ∈ loaded ↔
        ⟨address, location.outpoint⟩ ∈ keys ∧ table.get ⟨address, location⟩ = some proto := by
  have reads := readsBack ranged survives
  refine ⟨fun _ => Pebble.addressLocation_fromBytes, ?_, ?_⟩
  · intro query member key inRange
    have between := AddressLocation.within_outpoint inRange query.address
      (fits query member)
    simpa only [Bound.above, Bound.below, Bool.and_eq_true, decide_eq_true_eq] using between
  · refine ⟨_, loadTransfers_eq walks stored ranged reads
      (fun key listed => fits key ((same key).mp listed)), loaded_once stored reads distinct, ?_⟩
    intro location address proto
    rw [mem_loaded stored reads, same]

end Store

namespace Sample

theorem tick_length (tick : { bytes : Bytes // bytes.length = 8 }) : tick.1.length = 8 := tick.2

def transferProto : Pebble TransferProtoDB where
  getBytes proto := proto.tick.bytes ++ [UInt8.ofNat proto.amt, UInt8.ofNat proto.height]
  fromBytes bytes := do
    let tick ← tryInto 8 (bytes.take 8)
    let numbers ← tryInto 2 (bytes.drop 8)
    .ok {
      tick := { bytes := tick.1, size := tick_length tick }
      amt := (numbers.1.getD 0 0).toNat
      height := (numbers.1.getD 1 0).toNat }

theorem wojak_length : ([119, 111, 106, 97, 107, 0, 0, 0] : Bytes).length = 8 := rfl

def transferOf (amt : Nat) : TransferProtoDB :=
  { tick := { bytes := [119, 111, 106, 97, 107, 0, 0, 0], size := wojak_length }
    amt := amt
    height := 9 }

def placeOf (vout offset : Nat) : AddressLocation :=
  { address := 7, location := { outpoint := { txid := 5, vout := vout }, offset := offset } }

def transfers : List (AddressLocation × TransferProtoDB) :=
  [(placeOf 256 4, transferOf 1), (placeOf 1 0, transferOf 2),
    (placeOf 1 (2 ^ 64 - 1), transferOf 3), (placeOf 2 0, transferOf 4)]

theorem table_ranged (entries : List (AddressLocation × TransferProtoDB))
    (each : ∀ entry ∈ entries,
      entry.1.location.outpoint.vout < 2 ^ 32 ∧ entry.1.location.offset < 2 ^ 64) :
    ∀ key ∈ ((∅ : Table AddressLocation TransferProtoDB).extendList entries).keys, key.Ranged := by
  intro key member
  rw [Table.keys_extendList] at member
  rcases Finset.mem_union.mp member with impossible | listed
  · cases impossible
  · obtain ⟨entry, found, rfl⟩ := List.mem_map.mp (List.mem_toFinset.mp listed)
    exact ⟨(each entry found).1, (each entry found).2⟩

theorem table_survives (entries : List (AddressLocation × TransferProtoDB))
    (sorted : entries.Pairwise fun earlier later =>
      Pebble.addressLocation.getBytes earlier.1 < Pebble.addressLocation.getBytes later.1)
    (each : ∀ entry ∈ entries,
      transferProto.fromBytes (transferProto.getBytes entry.2) = .ok entry.2) :
    ∀ key proto, ((∅ : Table AddressLocation TransferProtoDB).extendList entries).get key =
      some proto → transferProto.fromBytes (transferProto.getBytes proto) = .ok proto := by
  intro key proto present
  exact each _ ((Table.get_extendList_iff (Stored.keys_nodup sorted) key proto).mp present)

def transferStore (entries : List (AddressLocation × TransferProtoDB)) : List (Bytes × Bytes) :=
  entries.map fun entry =>
    (Pebble.addressLocation.getBytes entry.1, transferProto.getBytes entry.2)

end Sample

namespace Store

theorem sample_loaded :
    ∃ loaded, loadTransfers RocksTable.placed Sample.transferProto
        (Sample.transferStore Sample.transfers) [⟨7, ⟨5, 1⟩⟩] = .ok loaded ∧
      (loaded.map fun item => (item.1, item.2.1)).Nodup ∧
      ∀ location address proto, (location, address, proto) ∈ loaded ↔
        ⟨address, location.outpoint⟩ ∈ ({⟨7, ⟨5, 1⟩⟩} : Finset AddressOutPoint) ∧
          ((∅ : Table AddressLocation TransferProtoDB).extendList Sample.transfers).get
            ⟨address, location⟩ = some proto := by
  have sorted : Sample.transfers.Pairwise fun earlier later =>
      Pebble.addressLocation.getBytes earlier.1 < Pebble.addressLocation.getBytes later.1 := by
    decide +kernel
  refine (loadTransfers_exact RocksTable.placed_walks (Stored.listed sorted)
    (Sample.table_ranged Sample.transfers (by decide))
    (Sample.table_survives Sample.transfers sorted (by decide +kernel)) _ ?_ _ ?_ ?_).2.2
  · decide
  · exact List.nodup_singleton _
  · intro key
    rw [List.mem_singleton, Finset.mem_singleton]

end Store

end WjkIndexer
