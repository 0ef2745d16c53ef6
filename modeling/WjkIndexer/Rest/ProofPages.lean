import WjkIndexer.Rest.Audit
import WjkIndexer.Rest.Holders

/-!
The proofs of history, page by page, and what a client does with them.
-/

namespace WjkIndexer

open FiniteTable ByteString SortedStore Paging

namespace Rest

def proofOfHistory (iteratorCf : List (Bytes × Bytes) → IteratorMode → List (Bytes × Bytes))
    (value : Pebble Hash256) (store : List (Bytes × Bytes)) (offset : Option Nat) (limit : Nat) :
    Except QueryError (List (Nat × Hash256)) :=
  if 1 ≤ limit ∧ limit ≤ 100 then
    match ((RocksTable.range iteratorCf (Pebble.uint 4) value store .unbounded
        (.excluded (offset.getD (2 ^ 32 - 1))) true).take limit).mapM id with
    | .error fault => .error (.panic fault)
    | .ok proofs => .ok proofs
  else .error .badRequest

end Rest

section Pages

variable {iteratorCf : List (Bytes × Bytes) → IteratorMode → List (Bytes × Bytes)}
  {value : Pebble Hash256} {store : List (Bytes × Bytes)} {table : Table Nat Hash256}

theorem proofs_readBack (ranged : ∀ height ∈ table.keys, height < 2 ^ 32 - 1)
    (survives : ∀ height hash, table.get height = some hash →
      value.fromBytes (value.getBytes hash) = .ok hash) :
    ReadsBack (Pebble.uint 4) value table where
  keys height member := Pebble.uint_fromBytes (by
    have small := ranged height member
    omega)
  values := survives

/-- The proofs of a store, the latest first. -/
def storedProofs (value : Pebble Hash256) (store : List (Bytes × Bytes)) : List (Nat × Hash256) :=
  (storedEntries (Pebble.uint 4) value store).reverse

theorem mem_storedProofs (stored : Stored (Pebble.uint 4) value store table)
    (survives : ReadsBack (Pebble.uint 4) value table) (height : Nat) (hash : Hash256) :
    (height, hash) ∈ storedProofs value store ↔ table.get height = some hash := by
  rw [storedProofs, List.mem_reverse, stored.mem_storedEntries survives]

theorem uint_lt {first second : Nat} (fits : first < 2 ^ 32) (bound : second < 2 ^ 32) :
    (Pebble.uint 4).getBytes first < (Pebble.uint 4).getBytes second ↔ first < second :=
  beBytes_lt (lt_of_lt_of_eq fits (by norm_num)) (lt_of_lt_of_eq bound (by norm_num))

theorem storedProofs_descending (stored : Stored (Pebble.uint 4) value store table)
    (ranged : ∀ height ∈ table.keys, height < 2 ^ 32 - 1)
    (survives : ReadsBack (Pebble.uint 4) value table) :
    (storedProofs value store).Pairwise fun earlier later => later.1 < earlier.1 := by
  rw [storedProofs, List.pairwise_reverse]
  refine List.Pairwise.imp_of_mem ?_ (stored.storedEntries_sorted survives)
  rintro ⟨earlier, first⟩ ⟨later, second⟩ member other order
  have small := ranged earlier (Table.mem_keys_iff.mpr
    ⟨_, (stored.mem_storedEntries survives).mp member⟩)
  have bound := ranged later (Table.mem_keys_iff.mpr
    ⟨_, (stored.mem_storedEntries survives).mp other⟩)
  exact (uint_lt (by omega) (by omega)).mp order

theorem proofOfHistory_eq (walks : WalksInOrder iteratorCf)
    (stored : Stored (Pebble.uint 4) value store table)
    (ranged : ∀ height ∈ table.keys, height < 2 ^ 32 - 1)
    (survives : ReadsBack (Pebble.uint 4) value table) {offset : Option Nat}
    (small : offset.getD (2 ^ 32 - 1) < 2 ^ 32) {limit : Nat} (valid : 1 ≤ limit ∧ limit ≤ 100) :
    Rest.proofOfHistory iteratorCf value store offset limit =
      .ok (((storedProofs value store).filter fun entry =>
        entry.1 < offset.getD (2 ^ 32 - 1)).take limit) := by
  have scanned : (storedEntries (Pebble.uint 4) value store).filter (fun entry =>
      (RocksTable.encodeBound (Pebble.uint 4) .unbounded).above ((Pebble.uint 4).getBytes entry.1) &&
        (RocksTable.encodeBound (Pebble.uint 4) (.excluded (offset.getD (2 ^ 32 - 1)))).below
          ((Pebble.uint 4).getBytes entry.1)) =
      (storedEntries (Pebble.uint 4) value store).filter fun entry =>
        entry.1 < offset.getD (2 ^ 32 - 1) := by
    apply List.filter_congr
    rintro ⟨height, hash⟩ member
    have below := ranged height (Table.mem_keys_iff.mpr
      ⟨_, (stored.mem_storedEntries survives).mp member⟩)
    simp only [RocksTable.encodeBound, Bound.above, Bound.below, Bool.true_and, decide_eq_decide]
    exact uint_lt (by omega) small
  rw [Rest.proofOfHistory, if_pos valid, stored.range_eq walks survives, if_pos rfl, scanned,
    ← List.map_take, collect_ok, storedProofs, List.filter_reverse]

theorem find_storedProofs (stored : Stored (Pebble.uint 4) value store table)
    (survives : ReadsBack (Pebble.uint 4) value table) (height : Nat) :
    ((storedProofs value store).find? fun entry => entry.1 = height).map Prod.snd =
      table.get height := by
  have members := mem_storedProofs stored survives
  cases found : (storedProofs value store).find? fun entry => entry.1 = height with
  | none =>
      rw [List.find?_eq_none] at found
      cases present : table.get height with
      | none => rfl
      | some hash =>
          have absent := found _ ((members height hash).mpr present)
          simp at absent
  | some entry =>
      obtain ⟨place, hash⟩ := entry
      have same : place = height := by simpa using List.find?_some found
      rw [← same, (members place hash).mp (List.mem_of_find?_eq_some found)]
      rfl

end Pages

/-- A client that asks for page after page of the proofs ends with those of all heights, the latest
first. It computes the proof of an applied block again from the one that is listed for the height
below it and from the events that are stored for its own, as the endpoints show an event. -/
theorem proofs_followed {env : Env} {addressOf : FullHash → Option String}
    {json : Rest.History → Bytes} {process : Process} (serializes : Serializes env json)
    (burned : addressOf env.opReturnHash = none)
    (reached : Reachable env (Addressed env addressOf) process)
    {iteratorCf : List (Bytes × Bytes) → IteratorMode → List (Bytes × Bytes)}
    (walks : WalksInOrder iteratorCf) {value : Pebble Hash256} {store : List (Bytes × Bytes)}
    (stored : Stored (Pebble.uint 4) value store process.db.proofOfHistory)
    (ranged : ∀ height ∈ process.db.proofOfHistory.keys, height < 2 ^ 32 - 1)
    (survives : ∀ height hash, process.db.proofOfHistory.get height = some hash →
      value.fromBytes (value.getBytes hash) = .ok hash)
    {limit : Nat} (positive : 0 < limit) (most : limit ≤ 100) :
    ∃ read,
      Reads (fun offset => Rest.proofOfHistory iteratorCf value store offset limit)
        Prod.fst none read ∧
      (∀ height hash, (height, hash) ∈ read ↔
        process.db.proofOfHistory.get height = some hash) ∧
      read.Pairwise (fun earlier later => later.1 < earlier.1) ∧
      ∀ height block, (height, block) ∈ process.chain → env.startHeight ≤ height → 0 < height →
        ∃ shown, storedEvents env process.db height = some shown ∧
          (height, clientProof env json
            (((read.find? fun entry => entry.1 = height - 1).map Prod.snd).getD env.defaultHash)
            shown) ∈ read := by
  have reads := proofs_readBack ranged survives
  have members := mem_storedProofs stored reads
  have descending := storedProofs_descending stored ranged reads
  have heights : ∀ entry ∈ storedProofs value store, entry.1 < 2 ^ 32 - 1 := by
    intro entry listed
    exact ranged _ (Table.mem_keys_iff.mpr ⟨_, (members entry.1 entry.2).mp listed⟩)
  refine ⟨storedProofs value store, ?_, members, descending, ?_⟩
  · refine reads_descending positive descending ?_ ?_
    · rw [proofOfHistory_eq walks stored ranged reads (by simp) ⟨positive, most⟩, Option.getD_none]
      rw [List.filter_eq_self.mpr fun entry listed => decide_eq_true (heights entry listed)]
    · intro last listed
      have small := heights last listed
      rw [proofOfHistory_eq walks stored ranged reads (by
        rw [Option.getD_some]
        omega) ⟨positive, most⟩, Option.getD_some]
  · intro height block applied begun above
    obtain ⟨shown, events, proof⟩ :=
      applied_audited serializes burned reached applied begun above
    refine ⟨shown, events, (members _ _).mpr ?_⟩
    rw [find_storedProofs stored reads]
    exact proof

namespace Sample

/-- A hash is stored as its bytes. -/
def hashValue : Pebble Hash256 where
  getBytes hash := beBytes 32 hash.toNat
  fromBytes bytes := .ok (BitVec.ofNat 256 (ofBeBytes bytes))

theorem hashValue_fromBytes (hash : Hash256) :
    hashValue.fromBytes (hashValue.getBytes hash) = .ok hash := by
  simp only [hashValue]
  rw [ofBeBytes_beBytes (lt_of_lt_of_eq hash.isLt (by norm_num)), BitVec.ofNat_toNat,
    BitVec.setWidth_eq]

end Sample

theorem wojak_proofs : ∃ process store read,
    Reachable Sample.jsonEnv (Addressed Sample.jsonEnv Sample.senderAddress) process ∧
    Stored (Pebble.uint 4) Sample.hashValue store process.db.proofOfHistory ∧
    Reads (fun offset => Rest.proofOfHistory RocksTable.placed Sample.hashValue store offset 1)
      Prod.fst none read ∧
    ∃ shown, storedEvents Sample.jsonEnv process.db 2 = some shown ∧
      (2, clientProof Sample.jsonEnv Sample.historyJson
        (((read.find? fun entry => entry.1 = 2 - 1).map Prod.snd).getD
          Sample.jsonEnv.defaultHash) shown) ∈ read := by
  obtain ⟨process, reached, head, ranged⟩ : ∃ process,
      Reachable Sample.jsonEnv (Addressed Sample.jsonEnv Sample.senderAddress) process ∧
      process.chain.head? = some (2, Sample.addressed Sample.inscribeWojak) ∧
      ∀ height ∈ process.db.proofOfHistory.keys, height < 2 ^ 32 - 1 :=
    replay_any [
      .block 1 (Sample.addressed Sample.payWojak) true,
      .block 2 (Sample.addressed Sample.inscribeWojak) true] (by decide +kernel)
  have codes : Codes (Pebble.uint 4) Sample.hashValue (fun height => height < 2 ^ 32)
      (fun _ => True) :=
    ⟨fun height fits => Pebble.uint_fromBytes (lt_of_lt_of_eq fits (by norm_num)),
      fun hash _ => Sample.hashValue_fromBytes hash⟩
  obtain ⟨store, kept⟩ := kept_exists codes process.db.proofOfHistory
    fun height hash present => ⟨by
      have small := ranged height (Table.mem_keys_iff.mpr ⟨hash, present⟩)
      omega, trivial⟩
  have serializes : Serializes Sample.jsonEnv Sample.historyJson := fun _ _ => rfl
  obtain ⟨read, pages, _, _, follows⟩ :=
    proofs_followed serializes (by decide +kernel) reached RocksTable.placed_walks
      kept.toStored ranged (fun _ hash _ => Sample.hashValue_fromBytes hash) Nat.one_pos (by decide)
  exact ⟨process, store, read, reached, kept.toStored, pages,
    follows 2 _ (List.mem_of_head? head) (by decide) (by decide)⟩

end WjkIndexer
