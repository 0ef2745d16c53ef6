import WjkIndexer.Inscriptions.Searcher
import WjkIndexer.Library.Segments

/-!
Satoshis move first in, first out: where an offset of an input lies among the outputs of
a transaction.
-/

namespace WjkIndexer

open FiniteTable

theorem u64Sum_eq {values : List Nat} (fits : values.sum < u64Bound) :
    u64Sum values = values.sum := by
  suffices general : ∀ start, start + values.sum < u64Bound →
      values.foldl u64Add start = start + values.sum by
    rw [u64Sum, general 0 (by omega), Nat.zero_add]
  clear fits
  induction values with
  | nil => simp
  | cons value rest ih =>
      intro start fits
      rw [List.sum_cons] at fits ⊢
      have first : u64Add start value = start + value := Nat.mod_eq_of_lt (by omega)
      rw [List.foldl_cons, first, ih (start + value) (by omega)]
      omega

theorem u64Sub_eq {left right : Nat} (fits : left < u64Bound) (covered : right ≤ left) :
    u64Sub left right = left - right := by
  have small : right % u64Bound = right := Nat.mod_eq_of_lt (by omega)
  have wrapped : left + (u64Bound - right) = u64Bound + (left - right) := by omega
  rw [u64Sub, small, wrapped, Nat.add_mod_left, Nat.mod_eq_of_lt (by omega)]

theorem u64Add_eq {left right : Nat} (fits : left + right < u64Bound) :
    u64Add left right = left + right :=
  Nat.mod_eq_of_lt fits

namespace InscriptionSearcher

theorem locate_eq (values : List Nat) (vout offset : Nat) :
    locate values vout offset =
      (Segments.find values offset).map fun place => (vout + place.1, place.2) := by
  induction values generalizing vout offset with
  | nil => rfl
  | cons value rest ih =>
      rw [locate, Segments.find]
      by_cases here : offset < value
      · simp [here]
      · rw [if_neg here, if_neg here, ih, Option.map_map]
        congr 1
        funext place
        simp only [Function.comp_apply, Prod.mk.injEq, and_true]
        omega

theorem getOutputIndexByInput_eq {outputs : List EvaluatedTxOut}
    (fits : (outputs.map EvaluatedTxOut.value).sum < u64Bound) (offset : Option Nat) :
    getOutputIndexByInput offset outputs =
      offset.bind (Segments.find (outputs.map EvaluatedTxOut.value)) := by
  cases offset with
  | none => rfl
  | some offset =>
      have located : locate (outputs.map EvaluatedTxOut.value) 0 offset =
          Segments.find (outputs.map EvaluatedTxOut.value) offset := by
        simp [locate_eq]
      rw [getOutputIndexByInput, Option.bind_some, Option.bind_some]
      dsimp only
      rw [u64Sum_eq fits, located]
      by_cases beyond : (outputs.map EvaluatedTxOut.value).sum ≤ offset
      · rw [if_pos beyond, Segments.find_eq_none.mpr beyond]
      · rw [if_neg beyond]

theorem offsetsFrom_get {values : List Nat} {start : Nat} (fits : start + values.sum < u64Bound)
    (index : Nat) :
    (offsetsFrom start values)[index]? =
      if index < values.length then some (start + (values.take index).sum) else none := by
  induction values generalizing start index with
  | nil => simp [offsetsFrom]
  | cons value rest ih =>
      rw [List.sum_cons] at fits
      rw [offsetsFrom, u64Add_eq (by omega)]
      cases index with
      | zero => simp
      | succ index =>
          rw [List.getElem?_cons_succ, ih (by omega), List.take_succ_cons, List.sum_cons,
            List.length_cons, Nat.add_assoc]
          simp only [Nat.add_lt_add_iff_right]

theorem trimmed_get {inputs : List Nat} {fee : Nat} (covered : fee ≤ inputs.sum)
    (fits : inputs.sum < u64Bound) (index : Nat) :
    (offsetsFrom 0 (trimFee inputs fee).reverse)[index]? =
      if (inputs.reverse.take index).sum < inputs.sum - fee then
        some (inputs.reverse.take index).sum
      else none := by
  induction inputs generalizing fee with
  | nil => simp [trimFee, offsetsFrom]
  | cons input earlier ih =>
      rw [List.sum_cons] at covered fits ⊢
      have before : ∀ index, (earlier.reverse.take index).sum ≤ earlier.sum := by
        intro index
        have bound := Segments.sum_take_le earlier.reverse index
        rwa [List.sum_reverse] at bound
      have prefixSum : ((input :: earlier).reverse.take index).sum =
          if index ≤ earlier.length then (earlier.reverse.take index).sum
          else input + earlier.sum := by
        rw [List.reverse_cons]
        by_cases early : index ≤ earlier.length
        · rw [if_pos early, List.take_append_of_le_length (by simpa using early)]
        · rw [if_neg early, List.take_of_length_le (by simp; omega), List.sum_append,
            List.sum_reverse]
          simp [Nat.add_comm]
      rw [prefixSum, trimFee]
      by_cases partly : fee < input
      · have total : ((input - fee) :: earlier).reverse.sum = input - fee + earlier.sum := by
          rw [List.sum_reverse, List.sum_cons]
        rw [if_pos partly, offsetsFrom_get (by omega)]
        by_cases early : index ≤ earlier.length
        · have bound := before index
          rw [if_pos early, if_pos (by simp; omega), if_pos (by omega), List.reverse_cons,
            List.take_append_of_le_length (by simpa using early), Nat.zero_add]
        · rw [if_neg early, if_neg (by simp; omega), if_neg (by omega)]
      · rw [if_neg partly, ih (by omega) (by omega)]
        have same : earlier.sum - (fee - input) = input + earlier.sum - fee := by omega
        rw [same]
        by_cases early : index ≤ earlier.length
        · rw [if_pos early]
        · have all : (earlier.reverse.take index).sum = earlier.sum := by
            rw [List.take_of_length_le (by simp; omega), List.sum_reverse]
          rw [if_neg early, all, if_neg (by omega), if_neg (by omega)]

end InscriptionSearcher

/-- A transaction that pays out no more than it spends, of sums that are 64-bit numbers. -/
structure Funded (tx : Tx) (prevouts : Table OutPoint TxPrevout) : Prop where
  covered : tx.outputValues.sum ≤ (tx.inputValues prevouts).sum
  fits : (tx.inputValues prevouts).sum < u64Bound

/-- Where an offset of an input goes. -/
def placeOf (tx : Tx) (prevouts : Table OutPoint TxPrevout) (inputIndex offset : Nat) :
    Option (Nat × Nat) :=
  InscriptionSearcher.getOutputIndexByInput
    (((InscriptionSearcher.calcOffsets tx prevouts)[inputIndex]?).map (u64Add · offset)) tx.outputs

def positionOf (tx : Tx) (prevouts : Table OutPoint TxPrevout) (inputIndex offset : Nat) : Nat :=
  ((tx.inputValues prevouts).take inputIndex).sum + offset

namespace Funded

variable {tx : Tx} {prevouts : Table OutPoint TxPrevout}

theorem outputs_fit (funded : Funded tx prevouts) : tx.outputValues.sum < u64Bound :=
  Nat.lt_of_le_of_lt funded.covered funded.fits

theorem calcOffsets_get (funded : Funded tx prevouts) (inputIndex : Nat) :
    (InscriptionSearcher.calcOffsets tx prevouts)[inputIndex]? =
      if ((tx.inputValues prevouts).take inputIndex).sum < tx.outputValues.sum then
        some ((tx.inputValues prevouts).take inputIndex).sum
      else none := by
  have covered := funded.covered
  have fits := funded.fits
  have reversed : (tx.inputValues prevouts).reverse.sum = (tx.inputValues prevouts).sum :=
    List.sum_reverse _
  have fee : u64Sub (u64Sum (tx.inputValues prevouts)) (u64Sum tx.outputValues) =
      (tx.inputValues prevouts).sum - tx.outputValues.sum := by
    rw [u64Sum_eq fits, u64Sum_eq funded.outputs_fit, u64Sub_eq fits covered]
  rw [InscriptionSearcher.calcOffsets, fee, InscriptionSearcher.trimmed_get (by omega) (by omega),
    List.reverse_reverse, reversed]
  have same : (tx.inputValues prevouts).sum -
      ((tx.inputValues prevouts).sum - tx.outputValues.sum) = tx.outputValues.sum := by omega
  rw [same]

theorem placeOf_eq (funded : Funded tx prevouts) {inputIndex offset : Nat}
    (inside : positionOf tx prevouts inputIndex offset < u64Bound) :
    placeOf tx prevouts inputIndex offset =
      Segments.find tx.outputValues (positionOf tx prevouts inputIndex offset) := by
  rw [placeOf, InscriptionSearcher.getOutputIndexByInput_eq funded.outputs_fit,
    funded.calcOffsets_get]
  unfold positionOf at inside ⊢
  by_cases kept : ((tx.inputValues prevouts).take inputIndex).sum < tx.outputValues.sum
  · rw [if_pos kept, Option.map_some, Option.bind_some, u64Add_eq inside]
    rfl
  · rw [if_neg kept]
    exact (Segments.find_eq_none.mpr (by omega)).symm

end Funded

theorem positionOf_lt {tx : Tx} {prevouts : Table OutPoint TxPrevout}
    {inputIndex offset value : Nat} (listed : (tx.inputValues prevouts)[inputIndex]? = some value)
    (inside : offset < value) :
    positionOf tx prevouts inputIndex offset < (tx.inputValues prevouts).sum := by
  have bound := Segments.sum_take_add_le listed
  unfold positionOf
  omega

/-- Satoshis keep their order: an offset of an input is found exactly when its position lies
below the total of the outputs, and then at this position of the outputs. No two offsets share
a place, and inputs and outputs without value do not matter. -/
theorem placeOf_fifo {tx : Tx} {prevouts : Table OutPoint TxPrevout} (funded : Funded tx prevouts) :
    (∀ inputIndex value, (tx.inputValues prevouts)[inputIndex]? = some value →
      ∀ offset < value,
        (∀ vout inside, placeOf tx prevouts inputIndex offset = some (vout, inside) ↔
          (tx.outputValues.take vout).sum + inside = positionOf tx prevouts inputIndex offset ∧
            ∃ output, tx.outputs[vout]? = some output ∧ inside < output.value) ∧
        ((placeOf tx prevouts inputIndex offset).isSome ↔
          positionOf tx prevouts inputIndex offset < tx.outputValues.sum)) ∧
    (∀ first second value other, (tx.inputValues prevouts)[first]? = some value →
      (tx.inputValues prevouts)[second]? = some other → ∀ offset < value, ∀ beyond < other,
        ∀ place, placeOf tx prevouts first offset = some place →
          placeOf tx prevouts second beyond = some place → first = second ∧ offset = beyond) ∧
    ∀ twin known, Funded twin known →
      (twin.inputValues known).filter (· ≠ 0) = (tx.inputValues prevouts).filter (· ≠ 0) →
      twin.outputValues.filter (· ≠ 0) = tx.outputValues.filter (· ≠ 0) →
      ∀ first second value, (tx.inputValues prevouts)[first]? = some value →
        (twin.inputValues known)[second]? = some value →
        Segments.rank (tx.inputValues prevouts) first =
          Segments.rank (twin.inputValues known) second →
        ∀ offset < value,
          (placeOf twin known second offset).map (fun place =>
              (Segments.rank twin.outputValues place.1, place.2)) =
            (placeOf tx prevouts first offset).map fun place =>
              (Segments.rank tx.outputValues place.1, place.2) := by
  have fits := funded.fits
  have found : ∀ inputIndex value, (tx.inputValues prevouts)[inputIndex]? = some value →
      ∀ offset < value, placeOf tx prevouts inputIndex offset =
        Segments.find tx.outputValues (positionOf tx prevouts inputIndex offset) := by
    intro inputIndex value listed offset inside
    have bound := positionOf_lt listed inside
    exact funded.placeOf_eq (by omega)
  refine ⟨?_, ?_, ?_⟩
  · intro inputIndex value listed offset inside
    rw [found inputIndex value listed offset inside]
    refine ⟨?_, Segments.find_isSome⟩
    intro vout within
    rw [Segments.find_iff]
    simp only [Tx.outputValues, List.getElem?_map, Option.map_eq_some_iff, and_congr_right_iff]
    intro _
    constructor
    · rintro ⟨_, ⟨output, present, rfl⟩, bound⟩
      exact ⟨output, present, bound⟩
    · rintro ⟨output, present, bound⟩
      exact ⟨_, ⟨output, present, rfl⟩, bound⟩
  · intro first second value other listed also offset inside beyond within place one two
    rw [found first value listed offset inside] at one
    rw [found second other also beyond within] at two
    exact Segments.position_inj listed inside also within (Segments.find_inj one two)
  · intro twin known other inputs outputs first second value listed also same offset inside
    have bound := positionOf_lt also inside
    have fit := other.fits
    rw [found first value listed offset inside, other.placeOf_eq (by omega),
      ← Segments.find_filter, ← Segments.find_filter, outputs]
    congr 1
    unfold positionOf
    rw [← Segments.sum_take_filter (tx.inputValues prevouts), same, ← inputs,
      Segments.sum_take_filter]

namespace Sample

def payFee : Tx where
  hash := 2
  inputs := [0, 1, 2].map fun vout => { outpoint := ⟨1, vout⟩, scriptSig := [], witness := [] }
  outputs := [0, 60].map fun value => { value, scriptPubkey := [0x51], address := none }

def paid : Table OutPoint TxPrevout :=
  (∅ : Table OutPoint TxPrevout).extendList
    [(⟨1, 0⟩, ⟨7, 50⟩), (⟨1, 1⟩, ⟨7, 0⟩), (⟨1, 2⟩, ⟨7, 30⟩)]

end Sample

theorem payFee_fifo :
    (placeOf Sample.payFee Sample.paid 2 9).isSome ∧
      ¬ (placeOf Sample.payFee Sample.paid 2 10).isSome := by
  have funded : Funded Sample.payFee Sample.paid := ⟨by decide +kernel, by decide +kernel⟩
  have last : (Sample.payFee.inputValues Sample.paid)[2]? = some 30 := by decide +kernel
  have places := (placeOf_fifo funded).1 2 30 last
  rw [(places 9 (by decide)).2, (places 10 (by decide)).2]
  decide +kernel

end WjkIndexer
