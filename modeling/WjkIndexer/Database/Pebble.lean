import WjkIndexer.Database.Tables
import WjkIndexer.Library.Bytes

/-!
The encodings of keys and values in the store. Lists and sets of values are cut into pieces of
a declared size, which is stated apart from the encoder.
-/

namespace WjkIndexer

open ByteString

inductive PebbleError where
  -- an error that is returned
  | invalid
  | panic
  deriving DecidableEq, Repr

structure Pebble (Inner : Type) where
  fixedSize : Option Nat := none
  getBytes : Inner → Bytes
  fromBytes : Bytes → Except PebbleError Inner

/-- `bytes[first..last]` -/
def slice (bytes : Bytes) (first last : Nat) : Except PebbleError Bytes :=
  if first ≤ last ∧ last ≤ bytes.length then .ok ((bytes.take last).drop first)
  else .error .panic

def tryInto (size : Nat) (bytes : Bytes) :
    Except PebbleError { array : Bytes // array.length = size } :=
  if fits : bytes.length = size then .ok ⟨bytes, fits⟩ else .error .invalid

theorem slice_append (first middle last : Bytes) :
    slice (first ++ middle ++ last) first.length (first.length + middle.length) = .ok middle := by
  rw [slice, if_pos (by simp), ← List.length_append, List.take_left, List.drop_left]

theorem tryInto_ok {size : Nat} {bytes : Bytes} (fits : bytes.length = size) :
    tryInto size bytes = .ok ⟨bytes, fits⟩ :=
  dif_pos fits

namespace Pebble

variable {Inner : Type}

def uint (width : Nat) : Pebble Nat where
  fixedSize := some width
  getBytes := beBytes width
  fromBytes bytes := (tryInto width bytes).map fun array => ofBeBytes array.1

def vec (element : Pebble Inner) : Pebble (List Inner) where
  getBytes list := list.flatMap element.getBytes
  fromBytes bytes :=
    match element.fixedSize with
    -- `expect` of the size, and chunks of no size
    | none => .error .panic
    | some 0 => .error .panic
    | some size => (chunks size bytes).mapM element.fromBytes

def hashSet [DecidableEq Inner] (element : Pebble Inner) (iterate : Finset Inner → List Inner) :
    Pebble (Finset Inner) where
  getBytes set := element.vec.getBytes (iterate set)
  fromBytes bytes := (element.vec.fromBytes bytes).map List.toFinset

def addressTokenIdDB : Pebble AddressTokenIdDB where
  fixedSize := some (32 + 4 + 8)
  getBytes value := beBytes 32 value.address.toNat ++ value.token.bytes ++ beBytes 8 value.id
  fromBytes bytes := do
    let address ← tryInto 32 (← slice bytes 0 32)
    let token ← tryInto 8 (← slice bytes 32 (bytes.length - 8))
    let id ← tryInto 8 (← slice bytes (bytes.length - 8) bytes.length)
    .ok {
      address := BitVec.ofNat 256 (ofBeBytes address.1)
      token := { bytes := token.1, size := token.2 }
      id := ofBeBytes id.1 }

def tokenId : Pebble TokenId where
  getBytes value := value.token.bytes ++ beBytes 8 value.id
  fromBytes bytes := do
    let token ← tryInto 8 (← slice bytes 0 4)
    let id ← tryInto 8 (← slice bytes 4 bytes.length)
    .ok {
      token := { bytes := token.1, size := token.2 }
      id := ofBeBytes id.1 }

theorem vec_fromBytes {element : Pebble Inner} {size : Nat}
    (declared : element.fixedSize = some size) (positive : 0 < size) {list : List Inner}
    (sized : ∀ value ∈ list, (element.getBytes value).length = size)
    (survives : ∀ value ∈ list, element.fromBytes (element.getBytes value) = .ok value) :
    element.vec.fromBytes (element.vec.getBytes list) = .ok list := by
  have cut : chunks size (element.vec.getBytes list) = list.map element.getBytes := by
    have pieces : element.vec.getBytes list = (list.map element.getBytes).flatten := List.flatMap_def
    rw [pieces, chunks_flatten positive]
    intro piece listed
    obtain ⟨value, member, rfl⟩ := List.mem_map.mp listed
    exact sized value member
  have decoded : (list.map element.getBytes).mapM element.fromBytes = .ok list := by
    clear cut sized
    induction list with
    | nil => rfl
    | cons value rest ih =>
        rw [List.map_cons, List.mapM_cons, survives value List.mem_cons_self,
          ih fun other member => survives other (List.mem_cons_of_mem _ member)]
        rfl
  cases size with
  | zero => omega
  | succ size =>
      simp only [vec, declared] at cut ⊢
      rw [cut, decoded]

theorem uint_fromBytes {width number : Nat} (fits : number < 256 ^ width) :
    (uint width).fromBytes ((uint width).getBytes number) = .ok number := by
  simp only [uint, tryInto_ok (length_beBytes width number), Except.map]
  rw [ofBeBytes_beBytes fits]

@[simp] theorem length_addressTokenIdDB (value : AddressTokenIdDB) :
    (addressTokenIdDB.getBytes value).length = 48 := by
  simp [addressTokenIdDB, value.token.size]

theorem addressTokenIdDB_fromBytes {value : AddressTokenIdDB} (fits : value.id < 2 ^ 64) :
    addressTokenIdDB.fromBytes (addressTokenIdDB.getBytes value) = .ok value := by
  obtain ⟨address, ⟨token, size⟩, id⟩ := value
  have length : (beBytes 32 address.toNat ++ token ++ beBytes 8 id).length = 48 := by
    simp [size]
  have first : slice (beBytes 32 address.toNat ++ token ++ beBytes 8 id) 0 32 =
      .ok (beBytes 32 address.toNat) := by
    have cut := slice_append [] (beBytes 32 address.toNat) (token ++ beBytes 8 id)
    simpa using cut
  have second : slice (beBytes 32 address.toNat ++ token ++ beBytes 8 id) 32 40 = .ok token := by
    have cut := slice_append (beBytes 32 address.toNat) token (beBytes 8 id)
    simpa [size] using cut
  have third : slice (beBytes 32 address.toNat ++ token ++ beBytes 8 id) 40 48 =
      .ok (beBytes 8 id) := by
    have cut := slice_append (beBytes 32 address.toNat ++ token) (beBytes 8 id) []
    simpa [size] using cut
  have hash : BitVec.ofNat 256 (ofBeBytes (beBytes 32 address.toNat)) = address := by
    rw [ofBeBytes_beBytes (lt_of_lt_of_eq address.isLt (by norm_num)), BitVec.ofNat_toNat,
      BitVec.setWidth_eq]
  have number : ofBeBytes (beBytes 8 id) = id := ofBeBytes_beBytes (lt_of_lt_of_eq fits (by norm_num))
  simp only [addressTokenIdDB, length, first, second, third, tryInto_ok size,
    tryInto_ok (length_beBytes _ _), Nat.reduceSub, bind, Except.bind, hash, number]

theorem addressTokenIdDB_piece {bytes : Bytes} (length : bytes.length = 32 + 4 + 8) :
    addressTokenIdDB.fromBytes bytes = .error .invalid := by
  have first : slice bytes 0 32 = .ok (bytes.take 32) := by
    rw [slice, if_pos ⟨by omega, by omega⟩, List.drop_zero]
  have size : (bytes.take 32).length = 32 := by
    rw [List.length_take, length]
    rfl
  have second : slice bytes 32 (bytes.length - 8) =
      .ok ((bytes.take (bytes.length - 8)).drop 32) := by
    rw [slice, if_pos ⟨by omega, by omega⟩]
  have short : tryInto 8 ((bytes.take (bytes.length - 8)).drop 32) = .error .invalid := by
    rw [tryInto, dif_neg]
    rw [List.length_drop, List.length_take, length]
    decide
  simp only [addressTokenIdDB, first, second, tryInto_ok size, short, bind, Except.bind]

theorem vec_lost {list : List AddressTokenIdDB} (some : list ≠ []) :
    addressTokenIdDB.vec.fromBytes (addressTokenIdDB.vec.getBytes list) = .error .invalid := by
  obtain ⟨value, rest, rfl⟩ := List.exists_cons_of_ne_nil some
  have bytes : addressTokenIdDB.vec.getBytes (value :: rest) =
      addressTokenIdDB.getBytes value ++ addressTokenIdDB.vec.getBytes rest := rfl
  have nonempty : addressTokenIdDB.vec.getBytes (value :: rest) ≠ [] := by
    rw [bytes]
    apply List.ne_nil_of_length_pos
    rw [List.length_append, length_addressTokenIdDB]
    omega
  obtain ⟨pieces, cut⟩ := @chunks_head _ (32 + 4 + 8) _ nonempty
  have length : ((addressTokenIdDB.vec.getBytes (value :: rest)).take (32 + 4 + 8)).length =
      32 + 4 + 8 := by
    rw [List.length_take, bytes, List.length_append, length_addressTokenIdDB]
    omega
  have failed : (chunks (32 + 4 + 8) (addressTokenIdDB.vec.getBytes (value :: rest))).mapM
      addressTokenIdDB.fromBytes = .error .invalid := by
    rw [cut, List.mapM_cons, addressTokenIdDB_piece length]
    rfl
  exact failed

/-- The list of a block's events survives only when it is empty: the declared size of an event
is not that of its encoding. For the other stored element, a 64-bit offset, it is, and every
set of offsets survives. -/
theorem vec_survives_iff (list : List AddressTokenIdDB) :
    (addressTokenIdDB.vec.fromBytes (addressTokenIdDB.vec.getBytes list) = .ok list ↔
      list = []) ∧
    (∀ value, addressTokenIdDB.fixedSize ≠ some (addressTokenIdDB.getBytes value).length) ∧
    (∀ number, (uint 8).fixedSize = some ((uint 8).getBytes number).length) ∧
    ∀ iterate : Finset Nat → List Nat, (∀ set number, number ∈ iterate set ↔ number ∈ set) →
      ∀ set, (∀ number ∈ set, number < 2 ^ 64) →
        ((uint 8).hashSet iterate).fromBytes (((uint 8).hashSet iterate).getBytes set) =
          .ok set := by
  refine ⟨?_, ?_, ?_, ?_⟩
  · constructor
    · intro survives
      by_contra some
      rw [vec_lost some] at survives
      cases survives
    · rintro rfl
      rfl
  · intro value same
    rw [length_addressTokenIdDB] at same
    cases same
  · intro number
    simp [uint]
  · intro iterate members set bounded
    have survives := @vec_fromBytes _ (uint 8) _ rfl (by decide) (iterate set)
      (fun number _ => length_beBytes 8 number)
      (fun number listed => uint_fromBytes
        (lt_of_lt_of_eq (bounded number ((members set number).mp listed)) (by norm_num)))
    rw [hashSet]
    simp only [survives, Except.map]
    congr 1
    ext number
    rw [List.mem_toFinset, members]

/-- The list of one event is not read back. -/
theorem event_lost :
    addressTokenIdDB.vec.fromBytes (addressTokenIdDB.vec.getBytes
        [{ address := 7, token := { bytes := [99, 0, 0, 0, 0, 0, 0, 0], size := rfl }, id := 1 }]) =
      .error .invalid := by
  decide +kernel

end Pebble

end WjkIndexer
