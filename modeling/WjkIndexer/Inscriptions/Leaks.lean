import WjkIndexer.Inscriptions.Fifo
import WjkIndexer.Inscriptions.Parsed

/-!
What leaks into the fees of a block: the calls that the parser makes to record it, with their
subtractions checked as in a debug build, and the offsets they file it under.
-/

namespace WjkIndexer

open FiniteTable

def checkedSub (left right : Nat) : Option Nat := if right ≤ left then some (left - right) else none

theorem checkedSub_of_le {left right : Nat} (covered : right ≤ left) :
    checkedSub left right = some (left - right) := if_pos covered

namespace LeakedInscriptions

/-! The operations with their subtractions checked. -/

def checkedFee (tx : Tx) (inputIdx inputOffset : Nat) (prevouts : Table OutPoint TxPrevout) :
    Option (Nat × Nat) := do
  let inputValues := tx.inputValues prevouts
  let outputSum := u64Sum tx.outputValues
  let start ← checkedSub (u64Sum (inputValues.take (inputIdx + 1))) (inputValues.getD inputIdx 0)
  let offset ← checkedSub (u64Add start inputOffset) outputSum
  let fee ← checkedSub (u64Sum inputValues) outputSum
  some (fee, offset)

def checkedAdd (leaked : LeakedInscriptions) (inputIdx : Nat) (tx : Tx) (inputOffset : Nat)
    (prevouts : Table OutPoint TxPrevout) (inscription : LeakedInscription) :
    Option LeakedInscriptions := do
  let (fee, feeOffset) ← checkedFee tx inputIdx inputOffset prevouts
  let diff ← checkedSub fee feeOffset
  let key ← checkedSub leaked.totalAmount diff
  some { leaked with
    inscriptions := leaked.inscriptions.set key
      ((leaked.inscriptions.get key).getD [] ++ [inscription]) }

def checkedTxFee (leaked : LeakedInscriptions) (tx : Tx) (prevouts : Table OutPoint TxPrevout) :
    Option LeakedInscriptions := do
  let fee ← checkedSub (u64Sum (tx.inputValues prevouts)) (u64Sum tx.outputValues)
  some { leaked with totalAmount := u64Add leaked.totalAmount fee }

def checkedReward (leaked : LeakedInscriptions) : Option Nat :=
  checkedSub (u64Sum leaked.coinbaseTx.outputValues) leaked.totalAmount

/-- The loop over the outputs of the coinbase. The outer `none` is an underflow. -/
def checkedLocate : List Nat → Nat → Nat → Option (Option (Nat × Nat))
  | [], _, _ => some none
  | value :: rest, vout, offset =>
      if offset < value then some (some (vout, offset))
      else (checkedSub offset value).bind (checkedLocate rest (vout + 1))

/-- `get_leaked_inscriptions`: the reward first, then the output of every offset. -/
def checkedLeaked (leaked : LeakedInscriptions) : Option (Finset Location) :=
  leaked.checkedReward.bind fun reward =>
    let vout := fun offset =>
      checkedLocate leaked.coinbaseTx.outputValues 0 (u64Add offset reward)
    if ∀ offset ∈ leaked.inscriptions.keys, (vout offset).isSome then
      some (leaked.inscriptions.keys.biUnion fun offset =>
        ((vout offset).join.map fun (vout, offset) =>
          (⟨⟨leaked.coinbaseTx.hash, vout⟩, offset⟩ : Location)).toFinset)
    else none

end LeakedInscriptions

inductive LeakCall where
  | txFee (tx : Tx)
  | add (inputIdx : Nat) (tx : Tx) (inputOffset : Nat) (inscription : LeakedInscription)

def LeakCall.check (prevouts : Table OutPoint TxPrevout) (leaked : LeakedInscriptions) :
    LeakCall → Option LeakedInscriptions
  | txFee tx => leaked.checkedTxFee tx prevouts
  | add inputIdx tx inputOffset inscription =>
      leaked.checkedAdd inputIdx tx inputOffset prevouts inscription

def LeakCall.run (prevouts : Table OutPoint TxPrevout) (leaked : LeakedInscriptions) :
    LeakCall → LeakedInscriptions
  | txFee tx => { leaked with
      totalAmount := u64Add leaked.totalAmount
        (u64Sub (u64Sum (tx.inputValues prevouts)) (u64Sum tx.outputValues)) }
  | add inputIdx tx inputOffset inscription =>
      leaked.add inputIdx tx inputOffset prevouts inscription

namespace Parser

def place (context : TxContext) (inputIndex offset : Nat) : Option (Nat × Nat) :=
  InscriptionSearcher.getOutputIndexByInput
    ((context.inputsCum[inputIndex]?).map (u64Add · offset)) context.tx.outputs

variable (env : Env) (context : TxContext)

def spentOffsets (txin : TxInput) (state : ParseState) : List Nat :=
  ((state.offsets.get txin.outpoint).map (env.iterate txin.outpoint)).getD []

def Searched (inputIndex : Nat) : Prop := env.jubileeHeight ≤ context.height ∨ inputIndex = 0

instance (inputIndex : Nat) : Decidable (Searched env context inputIndex) :=
  inferInstanceAs (Decidable (_ ∨ _))

def converted (inputIndex : Nat) (txin : TxInput) (state : ParseState) :
    List (Option InscriptionTemplate) :=
  let stored := (state.partials.get txin.outpoint).getD {
    genesisTxid := context.tx.hash
    inscriptionIndex := 0
    parts := [] }
  let convert := convertToTemplate env context inputIndex stored.genesisTxid
  match Inscription.fromParts env (stored.parts ++ [partOf env txin]) inputIndex with
  | .none | .partialInscription => []
  | .single inscription => [convert inscription]
  | .many inscriptions => inscriptions.map convert

def leakCalls (state : ParseState) (input : TxInput × Nat) : List LeakCall :=
  let (txin, inputIndex) := input
  ((spentOffsets env txin state).filter fun offset => (place context inputIndex offset).isNone).map
      (fun offset => .add inputIndex context.tx offset .move) ++
    if Searched env context inputIndex then
      ((converted env context inputIndex txin state).filter Option.isNone).map fun _ =>
        .add inputIndex context.tx 0 .creation
    else []

def inputCalls : ParseState → List (TxInput × Nat) → List LeakCall
  | _, [] => []
  | state, input :: rest =>
      leakCalls env context state input ++ inputCalls (parseInput env context state input) rest

def chargeFee (prevouts : Table OutPoint TxPrevout) (state : ParseState) (tx : Tx) :
    Except Fault LeakedInscriptions :=
  match state.leaked with
  | none => .error .coinbaseMissing
  | some leaked => leaked.addTxFee tx prevouts

def txCalls (prevouts : Table OutPoint TxPrevout) (height created : Nat) (state : ParseState)
    (tx : Tx) : List LeakCall :=
  if tx.isCoinbase then []
  else
    match chargeFee prevouts state tx with
    | .ok charged => .txFee tx :: inputCalls env
        { prevouts, tx, inputsCum := InscriptionSearcher.calcOffsets tx prevouts, height, created }
        { state with leaked := some charged, indexInTx := 0 } tx.inputs.zipIdx
    | .error _ => []

def blockCalls (prevouts : Table OutPoint TxPrevout) (height created : Nat) :
    ParseState → List Tx → List LeakCall
  | _, [] => []
  | state, tx :: rest =>
      txCalls env prevouts height created state tx ++
        match parseTx env prevouts height created state tx with
        | .ok next => blockCalls prevouts height created next rest
        | .error _ => []

variable {env : Env} {context : TxContext}

def movedTo (env : Env) (context : TxContext) (inputIndex : Nat) (txin : TxInput)
    (state : ParseState) : List Location :=
  (spentOffsets env txin state).filterMap fun offset =>
    (place context inputIndex offset).map fun (vout, inside) =>
      ⟨⟨context.tx.hash, vout⟩, inside⟩

theorem moveInscription_place (inputIndex : Nat) (txin : TxInput) (state : ParseState)
    (offset : Nat) :
    (moveInscription env context inputIndex txin state offset).offsets =
        (((place context inputIndex offset).map fun place =>
          (⟨⟨context.tx.hash, place.1⟩, place.2⟩ : Location)).toList).foldl insertOffset
            state.offsets ∧
      (moveInscription env context inputIndex txin state offset).leaked =
        if (place context inputIndex offset).isNone then
          state.leaked.map fun leaked =>
            leaked.add inputIndex context.tx offset context.prevouts .move
        else state.leaked := by
  unfold moveInscription place
  dsimp only
  split
  · rename_i newVout newOffset found
    rw [found]
    exact ⟨rfl, rfl⟩
  · rename_i missing
    rw [missing]
    exact ⟨rfl, rfl⟩

theorem moveInscriptions_effect (inputIndex : Nat) (txin : TxInput) (state : ParseState) :
    (moveInscriptions env context inputIndex txin state).offsets =
        (movedTo env context inputIndex txin state).foldl insertOffset
          (state.offsets.remove txin.outpoint) ∧
      (moveInscriptions env context inputIndex txin state).leaked =
        state.leaked.map fun leaked =>
          (((spentOffsets env txin state).filter fun offset =>
            (place context inputIndex offset).isNone).map fun offset =>
              LeakCall.add inputIndex context.tx offset .move).foldl
                (LeakCall.run context.prevouts) leaked := by
  have moves : ∀ (offsets : List Nat) (state : ParseState),
      (offsets.foldl (moveInscription env context inputIndex txin) state).offsets =
          (offsets.filterMap fun offset =>
            (place context inputIndex offset).map fun place =>
              (⟨⟨context.tx.hash, place.1⟩, place.2⟩ : Location)).foldl insertOffset
                state.offsets ∧
        (offsets.foldl (moveInscription env context inputIndex txin) state).leaked =
          state.leaked.map fun leaked =>
            ((offsets.filter fun offset => (place context inputIndex offset).isNone).map
              fun offset => LeakCall.add inputIndex context.tx offset .move).foldl
                (LeakCall.run context.prevouts) leaked := by
    intro offsets
    induction offsets with
    | nil =>
        intro state
        exact ⟨rfl, by simp⟩
    | cons offset rest ih =>
        intro state
        obtain ⟨placed, recorded⟩ :=
          @moveInscription_place env context inputIndex txin state offset
        obtain ⟨offsets, leaked⟩ := ih (moveInscription env context inputIndex txin state offset)
        rw [List.foldl_cons, offsets, leaked, placed, recorded]
        cases found : place context inputIndex offset with
        | none =>
            refine ⟨by simp [found], ?_⟩
            cases state.leaked with
            | none => rfl
            | some leaked => simp [found, LeakCall.run]
        | some target =>
            refine ⟨by simp [found], ?_⟩
            cases state.leaked with
            | none => rfl
            | some leaked => simp [found]
  unfold moveInscriptions movedTo spentOffsets
  cases tracked : state.offsets.get txin.outpoint with
  | none =>
      refine ⟨?_, ?_⟩
      · simp [Table.remove_of_get tracked]
      · cases state.leaked <;> rfl
  | some offsets =>
      exact moves (env.iterate txin.outpoint offsets)
        { state with offsets := state.offsets.remove txin.outpoint }

def createdAt (env : Env) (context : TxContext) (inputIndex : Nat) (txin : TxInput)
    (state : ParseState) : List Location :=
  ((converted env context inputIndex txin state).filterMap id).map InscriptionTemplate.location

theorem numberTemplates_locations (index : Nat) (templates : List InscriptionTemplate) :
    (numberTemplates index templates).map InscriptionTemplate.location =
      templates.map InscriptionTemplate.location := by
  induction templates generalizing index with
  | nil => rfl
  | cons template rest ih => rw [numberTemplates, List.map_cons, List.map_cons, ih]

theorem createInscriptions_effect (genesisTxid : Txid) (templates : List InscriptionTemplate)
    (state : ParseState) :
    (createInscriptions env context genesisTxid templates state).offsets =
        (templates.map InscriptionTemplate.location).foldl insertOffset state.offsets ∧
      (createInscriptions env context genesisTxid templates state).leaked = state.leaked := by
  have creates : ∀ (templates : List InscriptionTemplate) (state : ParseState),
      (templates.foldl (createInscription env context) state).offsets =
          (templates.map InscriptionTemplate.location).foldl insertOffset state.offsets ∧
        (templates.foldl (createInscription env context) state).leaked = state.leaked := by
    intro templates
    induction templates with
    | nil => exact fun state => ⟨rfl, rfl⟩
    | cons template rest ih => exact fun state => ih _
  rw [createInscriptions_eq]
  obtain ⟨offsets, leaked⟩ := creates (if genesisTxid = context.tx.hash then
    numberTemplates state.indexInTx templates else templates) { state with
      indexInTx := if genesisTxid = context.tx.hash then state.indexInTx + templates.length
        else state.indexInTx }
  refine ⟨?_, leaked⟩
  rw [offsets]
  split
  · rw [numberTemplates_locations]
  · rfl

theorem leakCreations (inputIndex : Nat) (templates : List (Option InscriptionTemplate))
    (leaked : Option LeakedInscriptions) :
    templates.foldl (leakCreation context inputIndex) leaked =
      leaked.map fun leaked =>
        ((templates.filter Option.isNone).map fun _ =>
          LeakCall.add inputIndex context.tx 0 .creation).foldl
            (LeakCall.run context.prevouts) leaked := by
  induction templates generalizing leaked with
  | nil => simp
  | cons template rest ih =>
      rw [List.foldl_cons, ih]
      cases template with
      | some template => rfl
      | none =>
          rw [leakCreation, Option.map_map]
          rfl

theorem parseCreation_effect (inputIndex : Nat) (txin : TxInput) (state : ParseState) :
    (parseCreation env context inputIndex txin state).offsets =
        (createdAt env context inputIndex txin state).foldl insertOffset state.offsets ∧
      (parseCreation env context inputIndex txin state).leaked =
        state.leaked.map fun leaked =>
          (((converted env context inputIndex txin state).filter Option.isNone).map fun _ =>
            LeakCall.add inputIndex context.tx 0 .creation).foldl
              (LeakCall.run context.prevouts) leaked := by
  unfold parseCreation createdAt converted
  dsimp only
  generalize Inscription.fromParts env (((state.partials.get txin.outpoint).getD _).parts ++
    [partOf env txin]) inputIndex = result
  cases result with
  | none => exact ⟨rfl, by simp⟩
  | partialInscription => exact ⟨rfl, by simp⟩
  | single inscription =>
      obtain ⟨offsets, leaked⟩ := @createInscriptions_effect env context
        ((state.partials.get txin.outpoint).getD _).genesisTxid
        (convertToTemplate env context inputIndex _ inscription).toList _
      refine ⟨offsets.trans ?_, leaked.trans ?_⟩
      · dsimp only
        cases convertToTemplate env context inputIndex _ inscription <;> rfl
      · exact leakCreations inputIndex [_] state.leaked
  | many inscriptions =>
      obtain ⟨offsets, leaked⟩ := @createInscriptions_effect env context
        ((state.partials.get txin.outpoint).getD _).genesisTxid
        ((inscriptions.map (convertToTemplate env context inputIndex _)).filterMap id) _
      exact ⟨offsets, leaked.trans (leakCreations inputIndex _ state.leaked)⟩

def trackedAt (env : Env) (context : TxContext) (state : ParseState) (input : TxInput × Nat) :
    List Location :=
  movedTo env context input.2 input.1 state ++
    if Searched env context input.2 then createdAt env context input.2 input.1 state else []

theorem parseInput_effect (state : ParseState) (input : TxInput × Nat) :
    (parseInput env context state input).offsets =
        (trackedAt env context state input).foldl insertOffset
          (state.offsets.remove input.1.outpoint) ∧
      (parseInput env context state input).leaked =
        state.leaked.map fun leaked =>
          (leakCalls env context state input).foldl (LeakCall.run context.prevouts) leaked := by
  obtain ⟨moved, lost⟩ := @moveInscriptions_effect env context input.2 input.1 state
  obtain ⟨partials, _⟩ := moveInscriptions_partials env context input.2 input.1 state
  have same : converted env context input.2 input.1
      (moveInscriptions env context input.2 input.1 state) =
        converted env context input.2 input.1 state := by
    unfold converted
    rw [partials]
  obtain ⟨created, leaks⟩ := @parseCreation_effect env context input.2 input.1
    (moveInscriptions env context input.2 input.1 state)
  unfold parseInput trackedAt leakCalls
  dsimp only
  by_cases searched : env.jubileeHeight ≤ context.height ∨ input.2 = 0
  · have searching : Searched env context input.2 := searched
    rw [if_pos searched, if_pos searching, if_pos searching, created, leaks, moved, lost, createdAt,
      same]
    refine ⟨?_, ?_⟩
    · rw [List.foldl_append, createdAt]
    · rw [Option.map_map]
      simp only [List.foldl_append, Function.comp_def]
  · have closed : ¬ Searched env context input.2 := searched
    rw [if_neg searched, if_neg closed, if_neg closed, List.append_nil, List.append_nil]
    exact ⟨moved, lost⟩

end Parser

def Sized (worth : OutPoint → Nat) (offsets : Table OutPoint (Finset Nat)) : Prop :=
  ∀ outpoint, ∀ offset ∈ (offsets.get outpoint).getD ∅, offset < worth outpoint

def LeakCall.Leaks (tx : Tx) (prevouts : Table OutPoint TxPrevout) : LeakCall → Prop
  | txFee _ => False
  | add inputIdx of inputOffset _ => of = tx ∧ inputIdx < tx.inputs.length ∧
      tx.outputValues.sum ≤ positionOf tx prevouts inputIdx inputOffset ∧
      positionOf tx prevouts inputIdx inputOffset ≤ (tx.inputValues prevouts).sum

def feeOf (prevouts : Table OutPoint TxPrevout) (tx : Tx) : Nat :=
  (tx.inputValues prevouts).sum - tx.outputValues.sum

namespace LeakedInscriptions

variable {tx : Tx} {prevouts : Table OutPoint TxPrevout} {leaked : LeakedInscriptions}

def feeKey (total : Nat) (tx : Tx) (prevouts : Table OutPoint TxPrevout) (position : Nat) : Nat :=
  total - ((tx.inputValues prevouts).sum - position)

theorem checkedAdd_eq (funded : Funded tx prevouts) {inputIdx inputOffset : Nat}
    {inscription : LeakedInscription}
    (leaks : (LeakCall.add inputIdx tx inputOffset inscription).Leaks tx prevouts)
    (charged : feeOf prevouts tx ≤ leaked.totalAmount) (fits : leaked.totalAmount < u64Bound) :
    leaked.checkedAdd inputIdx tx inputOffset prevouts inscription =
        some (leaked.add inputIdx tx inputOffset prevouts inscription) ∧
      (leaked.add inputIdx tx inputOffset prevouts inscription).inscriptions.keys =
        insert (feeKey leaked.totalAmount tx prevouts (positionOf tx prevouts inputIdx inputOffset))
          leaked.inscriptions.keys := by
  obtain ⟨-, -, past, inside⟩ := leaks
  have small := funded.fits
  have covered := funded.covered
  have next := Segments.sum_take_succ (tx.inputValues prevouts) inputIdx
  have bound := Segments.sum_take_le (tx.inputValues prevouts) (inputIdx + 1)
  unfold positionOf at past inside
  unfold feeOf at charged
  have spent : u64Sum (tx.inputValues prevouts) = (tx.inputValues prevouts).sum := u64Sum_eq small
  have paid : u64Sum tx.outputValues = tx.outputValues.sum := u64Sum_eq funded.outputs_fit
  have start : u64Sum ((tx.inputValues prevouts).take (inputIdx + 1)) =
      ((tx.inputValues prevouts).take inputIdx).sum +
        (tx.inputValues prevouts).getD inputIdx 0 := by
    rw [u64Sum_eq (by omega), next]
  have position : u64Add ((tx.inputValues prevouts).take inputIdx).sum inputOffset =
      ((tx.inputValues prevouts).take inputIdx).sum + inputOffset := u64Add_eq (by omega)
  have checked : checkedFee tx inputIdx inputOffset prevouts =
      some ((tx.inputValues prevouts).sum - tx.outputValues.sum,
        ((tx.inputValues prevouts).take inputIdx).sum + inputOffset - tx.outputValues.sum) := by
    simp only [checkedFee, start, spent, paid]
    rw [checkedSub_of_le (by omega), Nat.add_sub_cancel]
    simp only [Option.bind_eq_bind, Option.bind_some, position]
    rw [checkedSub_of_le past, checkedSub_of_le covered]
    rfl
  have found : findFee tx inputIdx inputOffset prevouts =
      ((tx.inputValues prevouts).sum - tx.outputValues.sum,
        ((tx.inputValues prevouts).take inputIdx).sum + inputOffset - tx.outputValues.sum) := by
    have before : u64Sub (((tx.inputValues prevouts).take inputIdx).sum +
        (tx.inputValues prevouts).getD inputIdx 0) ((tx.inputValues prevouts).getD inputIdx 0) =
          ((tx.inputValues prevouts).take inputIdx).sum := by
      rw [u64Sub_eq (by omega) (by omega), Nat.add_sub_cancel]
    rw [findFee, start, spent, paid, before, position, u64Sub_eq small covered,
      u64Sub_eq (by omega) past]
  have rest : (tx.inputValues prevouts).sum - tx.outputValues.sum -
      (((tx.inputValues prevouts).take inputIdx).sum + inputOffset - tx.outputValues.sum) =
        (tx.inputValues prevouts).sum - positionOf tx prevouts inputIdx inputOffset := by
    unfold positionOf
    omega
  have diff : u64Sub ((tx.inputValues prevouts).sum - tx.outputValues.sum)
      (((tx.inputValues prevouts).take inputIdx).sum + inputOffset - tx.outputValues.sum) =
        (tx.inputValues prevouts).sum - positionOf tx prevouts inputIdx inputOffset := by
    rw [u64Sub_eq (by omega) (by omega), rest]
  have key : u64Sub leaked.totalAmount
      ((tx.inputValues prevouts).sum - positionOf tx prevouts inputIdx inputOffset) =
        feeKey leaked.totalAmount tx prevouts (positionOf tx prevouts inputIdx inputOffset) :=
    u64Sub_eq fits (by unfold positionOf; omega)
  refine ⟨?_, ?_⟩
  · rw [checkedAdd, checked, LeakedInscriptions.add, found]
    simp only [Option.bind_eq_bind, Option.bind_some]
    rw [diff, key, checkedSub_of_le (by omega), rest, Option.bind_some,
      checkedSub_of_le (by unfold positionOf; omega)]
    rfl
  · rw [LeakedInscriptions.add, found]
    dsimp only
    rw [diff, key, Table.keys_set]

theorem checkedTxFee_eq (funded : Funded tx prevouts)
    (fits : leaked.totalAmount + feeOf prevouts tx < u64Bound) :
    leaked.checkedTxFee tx prevouts = some (LeakCall.run prevouts leaked (.txFee tx)) ∧
      (LeakCall.run prevouts leaked (.txFee tx)).totalAmount =
        leaked.totalAmount + feeOf prevouts tx := by
  have spent : u64Sum (tx.inputValues prevouts) = (tx.inputValues prevouts).sum :=
    u64Sum_eq funded.fits
  have paid : u64Sum tx.outputValues = tx.outputValues.sum := u64Sum_eq funded.outputs_fit
  have fee : u64Sub (tx.inputValues prevouts).sum tx.outputValues.sum = feeOf prevouts tx :=
    u64Sub_eq funded.fits funded.covered
  refine ⟨?_, ?_⟩
  · rw [checkedTxFee, LeakCall.run, spent, paid, checkedSub_of_le funded.covered, fee]
    rfl
  · rw [LeakCall.run, spent, paid, fee]
    exact u64Add_eq fits

end LeakedInscriptions

theorem Sized.insert {worth : OutPoint → Nat} {offsets : Table OutPoint (Finset Nat)}
    (sized : Sized worth offsets) {location : Location}
    (inside : location.offset < worth location.outpoint) :
    Sized worth (insertOffset offsets location) := by
  intro outpoint offset member
  rw [get_insertOffset] at member
  split at member
  · rename_i same
    rw [Option.getD_some, Finset.mem_insert] at member
    rcases member with rfl | old
    · rw [same]
      exact inside
    · exact sized outpoint offset old
  · exact sized outpoint offset member

theorem Sized.insertAll {worth : OutPoint → Nat} {offsets : Table OutPoint (Finset Nat)}
    (sized : Sized worth offsets) {locations : List Location}
    (inside : ∀ location ∈ locations, location.offset < worth location.outpoint) :
    Sized worth (locations.foldl insertOffset offsets) :=
  List.foldlRecOn _ _ sized fun _ sized location listed => sized.insert (inside location listed)

theorem Sized.remove {worth : OutPoint → Nat} {offsets : Table OutPoint (Finset Nat)}
    (sized : Sized worth offsets) (spent : OutPoint) : Sized worth (offsets.remove spent) := by
  intro outpoint offset member
  rw [Table.get_remove] at member
  split at member
  · cases member
  · exact sized outpoint offset member

/-- A transaction with known inputs of other transactions, whose outputs and inputs have the
values `worth`. -/
structure Payable (worth : OutPoint → Nat) (prevouts : Table OutPoint TxPrevout) (tx : Tx) :
    Prop where
  ordinary : tx.isCoinbase = false
  known : ∀ input ∈ tx.inputs, (prevouts.get input.outpoint).isSome
  older : ∀ input ∈ tx.inputs, input.outpoint.txid ≠ tx.hash
  funded : Funded tx prevouts
  outputs : ∀ vout output, tx.outputs[vout]? = some output → worth ⟨tx.hash, vout⟩ = output.value
  inputs : ∀ input ∈ tx.inputs, worth input.outpoint = valueOf prevouts input.outpoint

structure Recorded (tx : Tx) (prevouts : Table OutPoint TxPrevout) (calls : List LeakCall)
    (before after : LeakedInscriptions) : Prop where
  checked : calls.foldlM (LeakCall.check prevouts) before = some after
  coinbaseTx : after.coinbaseTx = before.coinbaseTx
  totalAmount : after.totalAmount = before.totalAmount
  keys : ∀ key, key ∈ after.inscriptions.keys ↔ key ∈ before.inscriptions.keys ∨
    ∃ inputIdx inputOffset inscription, .add inputIdx tx inputOffset inscription ∈ calls ∧
      key = LeakedInscriptions.feeKey before.totalAmount tx prevouts
        (positionOf tx prevouts inputIdx inputOffset)

theorem recorded_calls {tx : Tx} {prevouts : Table OutPoint TxPrevout}
    (funded : Funded tx prevouts) {calls : List LeakCall}
    (leaks : ∀ call ∈ calls, call.Leaks tx prevouts) {before : LeakedInscriptions}
    (charged : feeOf prevouts tx ≤ before.totalAmount) (fits : before.totalAmount < u64Bound) :
    Recorded tx prevouts calls before (calls.foldl (LeakCall.run prevouts) before) := by
  induction calls generalizing before with
  | nil => exact ⟨rfl, rfl, rfl, by simp⟩
  | cons call rest ih =>
      have first := leaks call List.mem_cons_self
      cases call with
      | txFee other => exact absurd first id
      | add inputIdx of inputOffset inscription =>
          obtain rfl : of = tx := first.1
          obtain ⟨checked, keys⟩ := LeakedInscriptions.checkedAdd_eq funded first charged fits
          have later := @ih (fun call listed => leaks call (List.mem_cons_of_mem _ listed))
            (before.add inputIdx of inputOffset prevouts inscription) charged fits
          refine {
            checked := ?_
            coinbaseTx := later.coinbaseTx
            totalAmount := later.totalAmount
            keys := ?_ }
          · rw [List.foldlM_cons, LeakCall.check, checked]
            exact later.checked
          · intro key
            rw [List.foldl_cons, LeakCall.run, later.keys, keys, Finset.mem_insert]
            constructor
            · rintro ((same | old) | ⟨index, offset, kind, listed, same⟩)
              · exact Or.inr ⟨_, _, _, List.mem_cons_self, same⟩
              · exact Or.inl old
              · exact Or.inr ⟨index, offset, kind, List.mem_cons_of_mem _ listed, same⟩
            · rintro (old | ⟨index, offset, kind, listed, same⟩)
              · exact Or.inl (Or.inr old)
              · rcases List.mem_cons.mp listed with now | after
                · cases now
                  exact Or.inl (Or.inl same)
                · exact Or.inr ⟨index, offset, kind, after, same⟩

section Input

variable {env : Env} {context : TxContext} {worth : OutPoint → Nat}

theorem trackedAt_inside (state : ParseState) (input : TxInput × Nat) {location : Location}
    (listed : location ∈ Parser.trackedAt env context state input) :
    location.outpoint.txid = context.tx.hash ∧
      ∃ output, context.tx.outputs[location.outpoint.vout]? = some output ∧
        location.offset < output.value := by
  unfold Parser.trackedAt at listed
  rcases List.mem_append.mp listed with moved | created
  · simp only [Parser.movedTo, List.mem_filterMap, Option.map_eq_some_iff] at moved
    obtain ⟨offset, _, ⟨vout, inside⟩, found, rfl⟩ := moved
    exact ⟨rfl, InscriptionSearcher.getOutputIndexByInput_spec found⟩
  · split at created
    · simp only [Parser.createdAt, List.mem_map, List.mem_filterMap, id_eq] at created
      obtain ⟨template, ⟨_, made, rfl⟩, rfl⟩ := created
      unfold Parser.converted at made
      dsimp only at made
      split at made
      · cases made
      · cases made
      · have converted := List.mem_singleton.mp made
        obtain ⟨own, ⟨output, present, inside, _⟩, _⟩ :=
          Parsing.convertToTemplate_spec converted.symm
        exact ⟨own, output, present, inside⟩
      · obtain ⟨inscription, _, converted⟩ := List.mem_map.mp made
        obtain ⟨own, ⟨output, present, inside, _⟩, _⟩ := Parsing.convertToTemplate_spec converted
        exact ⟨own, output, present, inside⟩
    · cases created

theorem convertToTemplate_none {inputIndex : Nat} {genesisTxid : Txid}
    {inscription : Inscription}
    (lost : Parser.convertToTemplate env context inputIndex genesisTxid inscription = none) :
    InscriptionSearcher.getOutputIndexByInput (context.inputsCum[inputIndex]?)
      context.tx.outputs = none := by
  unfold Parser.convertToTemplate at lost
  dsimp only at lost
  split at lost
  · rename_i missing
    exact missing
  · cases lost

theorem mem_spentOffsets {state : ParseState} {txin : TxInput} {offset : Nat} :
    offset ∈ Parser.spentOffsets env txin state ↔
      offset ∈ (state.offsets.get txin.outpoint).getD ∅ := by
  unfold Parser.spentOffsets
  cases state.offsets.get txin.outpoint with
  | none => simp
  | some offsets => exact env.mem_iterate _ _ _

theorem place_tracked (known : context.inputsCum =
      InscriptionSearcher.calcOffsets context.tx context.prevouts)
    (payable : Payable worth context.prevouts context.tx) {state : ParseState}
    (sized : Sized worth state.offsets) {input : TxInput × Nat}
    (listed : context.tx.inputs[input.2]? = some input.1) {offset : Nat}
    (tracked : offset ∈ (state.offsets.get input.1.outpoint).getD ∅) :
    Parser.place context input.2 offset = Segments.find context.tx.outputValues
        (positionOf context.tx context.prevouts input.2 offset) ∧
      positionOf context.tx context.prevouts input.2 offset <
        (context.tx.inputValues context.prevouts).sum := by
  have fits := payable.funded.fits
  have value : (context.tx.inputValues context.prevouts)[input.2]? =
      some (valueOf context.prevouts input.1.outpoint) := by
    rw [Tx.inputValues, List.getElem?_map, listed]
    rfl
  have inside : offset < valueOf context.prevouts input.1.outpoint := by
    rw [← payable.inputs input.1 (List.mem_of_getElem? listed)]
    exact sized input.1.outpoint offset tracked
  have bound := positionOf_lt value inside
  refine ⟨?_, bound⟩
  rw [← payable.funded.placeOf_eq (by omega), placeOf, ← known]
  rfl

theorem leakCalls_leak (known : context.inputsCum =
      InscriptionSearcher.calcOffsets context.tx context.prevouts)
    (payable : Payable worth context.prevouts context.tx) {state : ParseState}
    (sized : Sized worth state.offsets) {input : TxInput × Nat}
    (listed : context.tx.inputs[input.2]? = some input.1) {call : LeakCall}
    (made : call ∈ Parser.leakCalls env context state input) :
    call.Leaks context.tx context.prevouts := by
  have funded := payable.funded
  have length : input.2 < context.tx.inputs.length := (List.getElem?_eq_some_iff.mp listed).1
  unfold Parser.leakCalls at made
  rcases List.mem_append.mp made with moved | created
  · obtain ⟨offset, member, rfl⟩ := List.mem_map.mp moved
    obtain ⟨tracked, missing⟩ := List.mem_filter.mp member
    obtain ⟨lost, bound⟩ := place_tracked known payable sized listed (mem_spentOffsets.mp tracked)
    rw [Option.isNone_iff_eq_none.mp missing, eq_comm, Segments.find_eq_none] at lost
    exact ⟨rfl, length, lost, Nat.le_of_lt bound⟩
  · split at created
    · obtain ⟨template, member, rfl⟩ := List.mem_map.mp created
      obtain ⟨completed, missing⟩ := List.mem_filter.mp member
      have none := Option.isNone_iff_eq_none.mp missing
      subst none
      have lost : InscriptionSearcher.getOutputIndexByInput (context.inputsCum[input.2]?)
          context.tx.outputs = none := by
        unfold Parser.converted at completed
        dsimp only at completed
        split at completed
        · cases completed
        · cases completed
        · exact convertToTemplate_none (List.mem_singleton.mp completed).symm
        · obtain ⟨inscription, _, converted⟩ := List.mem_map.mp completed
          exact convertToTemplate_none converted
      rw [known, InscriptionSearcher.getOutputIndexByInput_eq funded.outputs_fit,
        funded.calcOffsets_get] at lost
      refine ⟨rfl, length, ?_, Segments.sum_take_le _ input.2⟩
      unfold positionOf
      split at lost
      · exact Segments.find_eq_none.mp lost
      · omega
    · cases created

theorem parseInput_recorded (known : context.inputsCum =
      InscriptionSearcher.calcOffsets context.tx context.prevouts)
    (payable : Payable worth context.prevouts context.tx) {state : ParseState}
    (sized : Sized worth state.offsets) {leaked : LeakedInscriptions}
    (present : state.leaked = some leaked)
    (charged : feeOf context.prevouts context.tx ≤ leaked.totalAmount)
    (fits : leaked.totalAmount < u64Bound) {input : TxInput × Nat}
    (listed : context.tx.inputs[input.2]? = some input.1) :
    Sized worth (Parser.parseInput env context state input).offsets ∧
      ∃ after, (Parser.parseInput env context state input).leaked = some after ∧
        Recorded context.tx context.prevouts (Parser.leakCalls env context state input)
          leaked after := by
  obtain ⟨offsets, leaks⟩ := Parser.parseInput_effect state input
  refine ⟨?_, ?_⟩
  · rw [offsets]
    refine (sized.remove _).insertAll ?_
    intro location member
    obtain ⟨own, output, found, inside⟩ := trackedAt_inside state input member
    obtain ⟨⟨txid, vout⟩, offset⟩ := location
    obtain rfl : txid = context.tx.hash := own
    rw [payable.outputs vout output found]
    exact inside
  · rw [leaks, present]
    exact ⟨_, rfl, recorded_calls payable.funded
      (fun _ made => leakCalls_leak known payable sized listed made) charged fits⟩

end Input

end WjkIndexer
