import WjkIndexer.Database.Tables

/-!
Where the satoshis of an input go: the offsets of the inputs in the outputs of a
transaction, and what leaks through the fee into the outputs of the coinbase. Sums and
differences are those of unsigned 64-bit numbers in a release build.
-/

namespace WjkIndexer

open FiniteTable

def u64Bound : Nat := 2 ^ 64

def u64Add (left right : Nat) : Nat := (left + right) % u64Bound

def u64Sub (left right : Nat) : Nat := (left + (u64Bound - right % u64Bound)) % u64Bound

def u64Sum (values : List Nat) : Nat := values.foldl u64Add 0

def Tx.outputValues (tx : Tx) : List Nat := tx.outputs.map EvaluatedTxOut.value

/-- The value of a spent output, which `add_tx_fee` has looked up before any other use. -/
def valueOf (prevouts : Table OutPoint TxPrevout) (outpoint : OutPoint) : Nat :=
  ((prevouts.get outpoint).map TxPrevout.value).getD 0

def Tx.inputValues (tx : Tx) (prevouts : Table OutPoint TxPrevout) : List Nat :=
  tx.inputs.map fun input => valueOf prevouts input.outpoint

namespace InscriptionSearcher

/-- Take the fee off the values of the inputs, from the last input on. -/
def trimFee : List Nat → Nat → List Nat
  | [], _ => []
  | input :: earlier, fee =>
      if fee < input then (input - fee) :: earlier else trimFee earlier (fee - input)

def offsetsFrom : Nat → List Nat → List Nat
  | _, [] => []
  | start, value :: rest => start :: offsetsFrom (u64Add start value) rest

def calcOffsets (tx : Tx) (prevouts : Table OutPoint TxPrevout) : List Nat :=
  let inputValues := tx.inputValues prevouts
  let fee := u64Sub (u64Sum inputValues) (u64Sum tx.outputValues)
  offsetsFrom 0 (trimFee inputValues.reverse fee).reverse

/-- The first output that an offset falls into, counted from `vout`. -/
def locate : List Nat → Nat → Nat → Option (Nat × Nat)
  | [], _, _ => none
  | value :: rest, vout, offset =>
      if offset < value then some (vout, offset) else locate rest (vout + 1) (offset - value)

def getOutputIndexByInput (offset : Option Nat) (outputs : List EvaluatedTxOut) :
    Option (Nat × Nat) :=
  offset.bind fun offset =>
    let values := outputs.map EvaluatedTxOut.value
    if u64Sum values ≤ offset then none else locate values 0 offset

theorem locate_spec {values : List Nat} {vout offset found rest : Nat}
    (located : locate values vout offset = some (found, rest)) :
    ∃ index value, found = vout + index ∧ values[index]? = some value ∧ rest < value := by
  induction values generalizing vout offset with
  | nil => cases located
  | cons value others ih =>
      rw [locate] at located
      split at located
      · rename_i inside
        cases located
        exact ⟨0, value, rfl, rfl, inside⟩
      · obtain ⟨index, hit, foundEq, listed, inside⟩ := ih located
        exact ⟨index + 1, hit, by omega, listed, inside⟩

theorem getOutputIndexByInput_spec {offset : Option Nat} {outputs : List EvaluatedTxOut}
    {vout rest : Nat} (located : getOutputIndexByInput offset outputs = some (vout, rest)) :
    ∃ output, outputs[vout]? = some output ∧ rest < output.value := by
  cases offset with
  | none => cases located
  | some offset =>
      simp only [getOutputIndexByInput, Option.bind_some] at located
      split at located
      · cases located
      obtain ⟨index, value, foundEq, listed, inside⟩ := locate_spec located
      simp only [List.getElem?_map, Option.map_eq_some_iff] at listed
      obtain ⟨output, present, rfl⟩ := listed
      exact ⟨output, by rw [foundEq, Nat.zero_add, present], inside⟩

end InscriptionSearcher

inductive LeakedInscription where
  | creation
  | move
  deriving DecidableEq, Repr

structure LeakedInscriptions where
  coinbaseTx : Tx
  inscriptions : Table Nat (List LeakedInscription) := ∅
  totalAmount : Nat := 0

namespace LeakedInscriptions

def findFee (tx : Tx) (inputIdx inputOffset : Nat) (prevouts : Table OutPoint TxPrevout) :
    Nat × Nat :=
  let inputValues := tx.inputValues prevouts
  let outputSum := u64Sum tx.outputValues
  let prevOutValue := inputValues.getD inputIdx 0
  let offset := u64Sub
    (u64Add (u64Sub (u64Sum (inputValues.take (inputIdx + 1))) prevOutValue) inputOffset) outputSum
  (u64Sub (u64Sum inputValues) outputSum, offset)

def add (leaked : LeakedInscriptions) (inputIdx : Nat) (tx : Tx) (inputOffset : Nat)
    (prevouts : Table OutPoint TxPrevout) (inscription : LeakedInscription) :
    LeakedInscriptions :=
  let (fee, feeOffset) := findFee tx inputIdx inputOffset prevouts
  let key := u64Sub leaked.totalAmount (u64Sub fee feeOffset)
  { leaked with
    inscriptions := leaked.inscriptions.set key
      ((leaked.inscriptions.get key).getD [] ++ [inscription]) }

def addTxFee (leaked : LeakedInscriptions) (tx : Tx) (prevouts : Table OutPoint TxPrevout) :
    Except Fault LeakedInscriptions :=
  if tx.inputs.all fun input => (prevouts.get input.outpoint).isSome then
    .ok { leaked with
      totalAmount := u64Add leaked.totalAmount
        (u64Sub (u64Sum (tx.inputValues prevouts)) (u64Sum tx.outputValues)) }
  else .error .prevoutMissing

def coinbaseReward (leaked : LeakedInscriptions) : Nat :=
  u64Sub (u64Sum leaked.coinbaseTx.outputValues) leaked.totalAmount

def findInscriptionVout (leaked : LeakedInscriptions) (offset : Nat) : Option (Nat × Nat) :=
  InscriptionSearcher.locate leaked.coinbaseTx.outputValues 0 (u64Add offset leaked.coinbaseReward)

def getLeakedInscriptions (leaked : LeakedInscriptions) : Finset Location :=
  leaked.inscriptions.keys.biUnion fun offset =>
    ((leaked.findInscriptionVout offset).map fun (vout, offset) =>
      (⟨⟨leaked.coinbaseTx.hash, vout⟩, offset⟩ : Location)).toFinset

end LeakedInscriptions

end WjkIndexer
