import WjkIndexer.Chain.Spent
import WjkIndexer.Inscriptions.Leaks

/-!
Satoshis followed through the transactions of a block, and the offsets that the parser tracks:
each is moved on with its satoshi, and new ones come from inscriptions only.
-/

namespace WjkIndexer

open FiniteTable

/-- Where a satoshi is: in an output, or among the fees of the block so far. -/
inductive Place where
  | output (location : Location)
  | fee (offset : Nat)
  deriving DecidableEq, Repr

/-- Where a position of a transaction goes when earlier fees add up to `earlier`. -/
def Tx.placeAt (tx : Tx) (earlier position : Nat) : Place :=
  match Segments.find tx.outputValues position with
  | some (vout, inside) => .output ⟨⟨tx.hash, vout⟩, inside⟩
  | none => .fee (earlier + (position - tx.outputValues.sum))

namespace Place

variable (prevouts : Table OutPoint TxPrevout)

def followInput (earlier : Nat) (tx : Tx) (place : Place) (input : TxInput × Nat) : Place :=
  match place with
  | fee offset => fee offset
  | output location =>
      if location.outpoint = input.1.outpoint then
        tx.placeAt earlier (positionOf tx prevouts input.2 location.offset)
      else output location

def followTx (earlier : Nat) (tx : Tx) : Place → Place
  | fee offset => fee offset
  | output location =>
      match tx.inputs.findIdx? fun input => location.outpoint = input.outpoint with
      | some index => tx.placeAt earlier (positionOf tx prevouts index location.offset)
      | none => output location

def followTxs : Nat → List Tx → Place → Place
  | _, [], place => place
  | earlier, tx :: rest, place =>
      followTxs (earlier + feeOf prevouts tx) rest (followTx prevouts earlier tx place)

def settle (coinbase : Tx) (fees : Nat) : Place → Option Location
  | output location => some location
  | fee offset =>
      (Segments.find coinbase.outputValues (coinbase.outputValues.sum - fees + offset)).map
        fun place => ⟨⟨coinbase.hash, place.1⟩, place.2⟩

end Place

def feesOf (prevouts : Table OutPoint TxPrevout) (txs : List Tx) : Nat :=
  (txs.map (feeOf prevouts)).sum

theorem placeAt_own {tx : Tx} {earlier position : Nat} {location : Location}
    (found : tx.placeAt earlier position = .output location) :
    location.outpoint.txid = tx.hash := by
  unfold Tx.placeAt at found
  split at found
  · cases found
    rfl
  · cases found

theorem followTx_eq (prevouts : Table OutPoint TxPrevout) (earlier : Nat) (tx : Tx)
    (older : ∀ input ∈ tx.inputs, input.outpoint.txid ≠ tx.hash) (place : Place) :
    tx.inputs.zipIdx.foldl (Place.followInput prevouts earlier tx) place =
      place.followTx prevouts earlier tx := by
  have settled : ∀ (inputs : List TxInput) (start position : Nat),
      (∀ input ∈ inputs, input.outpoint.txid ≠ tx.hash) →
      (inputs.zipIdx start).foldl (Place.followInput prevouts earlier tx)
        (tx.placeAt earlier position) = tx.placeAt earlier position := by
    intro inputs
    induction inputs with
    | nil => intros; rfl
    | cons input rest ih =>
        intro start position older
        rw [List.zipIdx_cons, List.foldl_cons]
        have stays : Place.followInput prevouts earlier tx (tx.placeAt earlier position)
            (input, start) = tx.placeAt earlier position := by
          cases found : tx.placeAt earlier position with
          | fee offset => rfl
          | output location =>
              rw [Place.followInput, if_neg]
              intro same
              exact older input List.mem_cons_self (same ▸ placeAt_own found)
        rw [stays]
        exact ih (start + 1) position fun other listed =>
          older other (List.mem_cons_of_mem _ listed)
  have fees : ∀ (inputs : List (TxInput × Nat)) (offset : Nat),
      inputs.foldl (Place.followInput prevouts earlier tx) (.fee offset) = .fee offset := by
    intro inputs offset
    induction inputs with
    | nil => rfl
    | cons input rest ih => exact ih
  cases place with
  | fee offset => exact fees _ offset
  | output location =>
      have search : ∀ (inputs : List TxInput) (start : Nat),
          (∀ input ∈ inputs, input.outpoint.txid ≠ tx.hash) →
          (inputs.zipIdx start).foldl (Place.followInput prevouts earlier tx)
              (.output location) =
            match inputs.findIdx? fun input => location.outpoint = input.outpoint with
            | some index =>
                tx.placeAt earlier (positionOf tx prevouts (start + index) location.offset)
            | none => .output location := by
        intro inputs
        induction inputs with
        | nil => intros; rfl
        | cons input rest ih =>
            intro start older
            rw [List.zipIdx_cons, List.foldl_cons, List.findIdx?_cons, Place.followInput]
            by_cases spends : location.outpoint = input.outpoint
            · rw [if_pos spends, if_pos (decide_eq_true spends)]
              exact settled rest (start + 1) _ fun other listed =>
                older other (List.mem_cons_of_mem _ listed)
            · rw [if_neg spends, if_neg (by simpa using spends),
                ih (start + 1) fun other listed => older other (List.mem_cons_of_mem _ listed)]
              cases rest.findIdx? fun input => decide (location.outpoint = input.outpoint) with
              | none => rfl
              | some index =>
                  have shifted : start + 1 + index = start + (index + 1) := by omega
                  simp only [Option.map_some, shifted]
      have whole := search tx.inputs 0 older
      simp only [Nat.zero_add] at whole
      exact whole

def Tracks (state : ParseState) : Place → Prop
  | .output location => location.offset ∈ (state.offsets.get location.outpoint).getD ∅
  | .fee offset => ∃ leaked, state.leaked = some leaked ∧ offset ∈ leaked.inscriptions.keys

def LeakedInscriptions.Filed (leaked : LeakedInscriptions) : Prop :=
  ∀ key ∈ leaked.inscriptions.keys, key ≤ leaked.totalAmount

theorem Recorded.filed {tx : Tx} {prevouts : Table OutPoint TxPrevout} {calls : List LeakCall}
    {before after : LeakedInscriptions} (recorded : Recorded tx prevouts calls before after)
    (filed : before.Filed) : after.Filed := by
  intro key member
  rw [recorded.totalAmount]
  rcases (recorded.keys key).mp member with old | ⟨_, _, _, _, rfl⟩
  · exact filed key old
  · exact Nat.sub_le _ _

/-- A part of the parsing: its calls go through, they add `fees` to the total, and all that
is tracked afterwards has been followed from before or is one of `births`. -/
structure Carried (prevouts : Table OutPoint TxPrevout) (calls : List LeakCall) (fees : Nat)
    (follow : Place → Place) (births : List Place) (before after : ParseState) : Prop where
  charged : ∃ leaked next, before.leaked = some leaked ∧ after.leaked = some next ∧
    calls.foldlM (LeakCall.check prevouts) leaked = some next ∧
    next.coinbaseTx = leaked.coinbaseTx ∧ (leaked.Filed → next.Filed) ∧
    next.totalAmount = leaked.totalAmount + fees
  tracks : ∀ place, Tracks after place ↔
    (∃ origin, Tracks before origin ∧ follow origin = place) ∨ place ∈ births

namespace Carried

variable {prevouts : Table OutPoint TxPrevout} {before middle after : ParseState}

theorem refl {leaked : LeakedInscriptions} (present : before.leaked = some leaked) :
    Carried prevouts [] 0 id [] before before where
  charged := ⟨leaked, leaked, present, present, rfl, rfl, id, rfl⟩
  tracks place := by simp

theorem trans {calls later : List LeakCall} {fees more : Nat} {follow next : Place → Place}
    {births born : List Place} (first : Carried prevouts calls fees follow births before middle)
    (second : Carried prevouts later more next born middle after) :
    Carried prevouts (calls ++ later) (fees + more) (next ∘ follow) (births.map next ++ born)
      before after where
  charged := by
    obtain ⟨leaked, between, present, found, checked, coinbase, filed, total⟩ := first.charged
    obtain ⟨also, last, same, left, through, kept, still, added⟩ := second.charged
    obtain rfl : between = also := by simpa [found] using same
    refine ⟨leaked, last, present, left, ?_, kept.trans coinbase, still ∘ filed, by omega⟩
    rw [List.foldlM_append, checked]
    exact through
  tracks place := by
    rw [second.tracks]
    simp only [first.tracks, List.mem_append, List.mem_map, Function.comp_apply]
    constructor
    · rintro (⟨origin, ⟨source, tracked, rfl⟩ | born, rfl⟩ | new)
      · exact Or.inl ⟨source, tracked, rfl⟩
      · exact Or.inr (Or.inl ⟨origin, born, rfl⟩)
      · exact Or.inr (Or.inr new)
    · rintro (⟨source, tracked, rfl⟩ | ⟨origin, born, rfl⟩ | new)
      · exact Or.inl ⟨_, Or.inl ⟨source, tracked, rfl⟩, rfl⟩
      · exact Or.inl ⟨origin, Or.inr born, rfl⟩
      · exact Or.inr new

end Carried

namespace Parser

variable (env : Env) (context : TxContext) (earlier : Nat)

def births (state : ParseState) (input : TxInput × Nat) : List Place :=
  if Searched env context input.2 then
    (createdAt env context input.2 input.1 state).map .output ++
      ((converted env context input.2 input.1 state).filter Option.isNone).map fun _ =>
        context.tx.placeAt earlier (positionOf context.tx context.prevouts input.2 0)
  else []

def inputBirths : ParseState → List (TxInput × Nat) → List Place
  | _, [] => []
  | state, input :: rest =>
      (births env context earlier state input).map
          (fun place => rest.foldl (Place.followInput context.prevouts earlier context.tx) place) ++
        inputBirths (parseInput env context state input) rest

def txBirths (prevouts : Table OutPoint TxPrevout) (height created : Nat) (earlier : Nat)
    (state : ParseState) (tx : Tx) : List Place :=
  match chargeFee prevouts state tx with
  | .ok charged => inputBirths env
      { prevouts, tx, inputsCum := InscriptionSearcher.calcOffsets tx prevouts, height, created }
      earlier { state with leaked := some charged, indexInTx := 0 } tx.inputs.zipIdx
  | .error _ => []

def blockBirths (prevouts : Table OutPoint TxPrevout) (height created : Nat) :
    Nat → ParseState → List Tx → List Place
  | _, _, [] => []
  | earlier, state, tx :: rest =>
      match parseTx env prevouts height created state tx with
      | .ok next =>
          (txBirths env prevouts height created earlier state tx).map
              (Place.followTxs prevouts (earlier + feeOf prevouts tx) rest) ++
            blockBirths prevouts height created (earlier + feeOf prevouts tx) next rest
      | .error _ => []

end Parser

theorem placeAt_fee {tx : Tx} {earlier position : Nat} (past : tx.outputValues.sum ≤ position) :
    tx.placeAt earlier position = .fee (earlier + (position - tx.outputValues.sum)) := by
  rw [Tx.placeAt, Segments.find_eq_none.mpr past]

theorem mem_insertAll {locations : List Location} {offsets : Table OutPoint (Finset Nat)}
    {location : Location} :
    location.offset ∈ ((locations.foldl insertOffset offsets).get location.outpoint).getD ∅ ↔
      location ∈ locations ∨ location.offset ∈ (offsets.get location.outpoint).getD ∅ := by
  induction locations generalizing offsets with
  | nil => simp
  | cons first rest ih =>
      rw [List.foldl_cons, ih, get_insertOffset, List.mem_cons]
      by_cases same : location.outpoint = first.outpoint
      · rw [if_pos same, Option.getD_some, Finset.mem_insert, same]
        have equal : location.offset = first.offset ↔ location = first := by
          constructor
          · intro offset
            obtain ⟨outpoint, inside⟩ := location
            obtain ⟨other, also⟩ := first
            cases same
            cases offset
            rfl
          · rintro rfl
            rfl
        rw [equal]
        tauto
      · rw [if_neg same]
        have different : location ≠ first := fun equal => same (equal ▸ rfl)
        tauto

section Input

variable {env : Env} {context : TxContext} {worth : OutPoint → Nat} {earlier : Nat}

theorem placeAt_feeKey {tx : Tx} {prevouts : Table OutPoint TxPrevout} {position : Nat}
    (past : tx.outputValues.sum ≤ position) (inside : position ≤ (tx.inputValues prevouts).sum) :
    tx.placeAt earlier position =
      .fee (LeakedInscriptions.feeKey (earlier + feeOf prevouts tx) tx prevouts position) := by
  rw [placeAt_fee past, LeakedInscriptions.feeKey, feeOf]
  congr 1
  omega

theorem creation_leaks {state : ParseState} {input : TxInput × Nat}
    (searched : Parser.Searched env context input.2) {template : Option InscriptionTemplate}
    (missing : template ∈ (Parser.converted env context input.2 input.1 state).filter
      Option.isNone) :
    .add input.2 context.tx 0 .creation ∈ Parser.leakCalls env context state input := by
  refine List.mem_append_right _ ?_
  rw [if_pos searched]
  exact List.mem_map.mpr ⟨template, missing, rfl⟩

theorem leakCalls_places (known : context.inputsCum =
      InscriptionSearcher.calcOffsets context.tx context.prevouts)
    (payable : Payable worth context.prevouts context.tx) {state : ParseState}
    (sized : Sized worth state.offsets) {input : TxInput × Nat}
    (listed : context.tx.inputs[input.2]? = some input.1) (key : Nat) :
    (∃ inputIdx inputOffset inscription,
        .add inputIdx context.tx inputOffset inscription ∈
          Parser.leakCalls env context state input ∧
        key = LeakedInscriptions.feeKey (earlier + feeOf context.prevouts context.tx) context.tx
          context.prevouts (positionOf context.tx context.prevouts inputIdx inputOffset)) ↔
      (∃ offset ∈ (state.offsets.get input.1.outpoint).getD ∅,
        context.tx.placeAt earlier (positionOf context.tx context.prevouts input.2 offset) =
          .fee key) ∨
      .fee key ∈ Parser.births env context earlier state input := by
  constructor
  · rintro ⟨inputIdx, inputOffset, inscription, made, rfl⟩
    obtain ⟨-, -, past, inside⟩ := leakCalls_leak known payable sized listed made
    have filed : context.tx.placeAt earlier
        (positionOf context.tx context.prevouts inputIdx inputOffset) = .fee _ :=
      placeAt_feeKey past inside
    unfold Parser.leakCalls at made
    rcases List.mem_append.mp made with moved | created
    · obtain ⟨offset, member, same⟩ := List.mem_map.mp moved
      cases same
      exact Or.inl ⟨inputOffset, mem_spentOffsets.mp (List.mem_filter.mp member).1, filed⟩
    · split at created
      · rename_i searched
        obtain ⟨template, member, same⟩ := List.mem_map.mp created
        cases same
        refine Or.inr ?_
        rw [Parser.births, if_pos searched, ← filed]
        exact List.mem_append_right _ (List.mem_map.mpr ⟨template, member, rfl⟩)
      · cases created
  · rintro (⟨offset, tracked, filed⟩ | born)
    · obtain ⟨found, bound⟩ := place_tracked known payable sized listed tracked
      have lost : Segments.find context.tx.outputValues
          (positionOf context.tx context.prevouts input.2 offset) = none := by
        unfold Tx.placeAt at filed
        split at filed
        · cases filed
        · assumption
      refine ⟨input.2, offset, .move, ?_, ?_⟩
      · refine List.mem_append_left _ (List.mem_map.mpr ⟨offset, ?_, rfl⟩)
        refine List.mem_filter.mpr ⟨mem_spentOffsets.mpr tracked, ?_⟩
        rw [found, lost]
        rfl
      · rw [placeAt_feeKey (Segments.find_eq_none.mp lost) (Nat.le_of_lt bound)] at filed
        exact (Place.fee.inj filed).symm
    · unfold Parser.births at born
      split at born
      · rename_i searched
        simp only [List.mem_append, List.mem_map, reduceCtorEq, and_false, exists_false,
          false_or] at born
        obtain ⟨template, missing, filed⟩ := born
        have made := creation_leaks searched missing
        obtain ⟨-, -, past, inside⟩ := leakCalls_leak known payable sized listed made
        refine ⟨input.2, 0, .creation, made, ?_⟩
        rw [placeAt_feeKey past inside] at filed
        exact (Place.fee.inj filed).symm
      · cases born

theorem trackedAt_places (known : context.inputsCum =
      InscriptionSearcher.calcOffsets context.tx context.prevouts)
    (payable : Payable worth context.prevouts context.tx) {state : ParseState}
    (sized : Sized worth state.offsets) {input : TxInput × Nat}
    (listed : context.tx.inputs[input.2]? = some input.1) (location : Location) :
    location ∈ Parser.trackedAt env context state input ↔
      (∃ offset ∈ (state.offsets.get input.1.outpoint).getD ∅,
        context.tx.placeAt earlier (positionOf context.tx context.prevouts input.2 offset) =
          .output location) ∨
      .output location ∈ Parser.births env context earlier state input := by
  have moved : location ∈ Parser.movedTo env context input.2 input.1 state ↔
      ∃ offset ∈ (state.offsets.get input.1.outpoint).getD ∅,
        context.tx.placeAt earlier (positionOf context.tx context.prevouts input.2 offset) =
          .output location := by
    unfold Parser.movedTo
    simp only [List.mem_filterMap, mem_spentOffsets, Option.map_eq_some_iff, Prod.exists]
    refine exists_congr fun offset => and_congr_right fun tracked => ?_
    rw [(place_tracked known payable sized listed tracked).1, Tx.placeAt]
    cases Segments.find context.tx.outputValues
        (positionOf context.tx context.prevouts input.2 offset) with
    | none => simp
    | some place => simp [Prod.ext_iff]
  have born : .output location ∈ Parser.births env context earlier state input ↔
      Parser.Searched env context input.2 ∧
        location ∈ Parser.createdAt env context input.2 input.1 state := by
    unfold Parser.births
    by_cases searched : Parser.Searched env context input.2
    · rw [if_pos searched, List.mem_append, List.mem_map]
      constructor
      · rintro (⟨created, member, same⟩ | leaked)
        · cases same
          exact ⟨searched, member⟩
        · obtain ⟨template, missing, filed⟩ := List.mem_map.mp leaked
          have made := creation_leaks searched missing
          obtain ⟨-, -, past, -⟩ := leakCalls_leak known payable sized listed made
          rw [placeAt_fee past] at filed
          cases filed
      · rintro ⟨-, member⟩
        exact Or.inl ⟨location, member, rfl⟩
    · simp [searched]
  rw [born, ← moved, Parser.trackedAt, List.mem_append]
  by_cases searched : Parser.Searched env context input.2 <;> simp [searched]

theorem parseInput_carried (known : context.inputsCum =
      InscriptionSearcher.calcOffsets context.tx context.prevouts)
    (payable : Payable worth context.prevouts context.tx) {state : ParseState}
    (sized : Sized worth state.offsets) {leaked : LeakedInscriptions}
    (present : state.leaked = some leaked)
    (total : leaked.totalAmount = earlier + feeOf context.prevouts context.tx)
    (fits : leaked.totalAmount < u64Bound) {input : TxInput × Nat}
    (listed : context.tx.inputs[input.2]? = some input.1) :
    Sized worth (Parser.parseInput env context state input).offsets ∧
      Carried context.prevouts (Parser.leakCalls env context state input) 0
        (fun place => place.followInput context.prevouts earlier context.tx input)
        (Parser.births env context earlier state input) state
        (Parser.parseInput env context state input) := by
  obtain ⟨inside, after, found, recorded⟩ :=
    @parseInput_recorded env context worth known payable state sized leaked present (by omega) fits
      input listed
  refine ⟨inside, ⟨leaked, after, present, found, recorded.checked, recorded.coinbaseTx,
    recorded.filed, recorded.totalAmount⟩, ?_⟩
  intro place
  cases place with
  | output location =>
      have placed := @trackedAt_places env context worth earlier known payable state sized input
        listed location
      rw [Tracks, (Parser.parseInput_effect state input).1, mem_insertAll, placed,
        Table.get_remove]
      constructor
      · rintro ((⟨offset, tracked, moved⟩ | born) | kept)
        · refine Or.inl ⟨.output ⟨input.1.outpoint, offset⟩, tracked, ?_⟩
          rw [Place.followInput, if_pos rfl]
          exact moved
        · exact Or.inr born
        · split at kept
          · cases kept
          · rename_i elsewhere
            exact Or.inl ⟨.output location, kept, if_neg elsewhere⟩
      · rintro (⟨origin, tracked, followed⟩ | born)
        · cases origin with
          | fee offset => cases followed
          | output source =>
              rw [Place.followInput] at followed
              split at followed
              · rename_i spends
                rw [Tracks, spends] at tracked
                exact Or.inl (Or.inl ⟨source.offset, tracked, followed⟩)
              · rename_i elsewhere
                cases followed
                rw [if_neg elsewhere]
                exact Or.inr tracked
        · exact Or.inl (Or.inr born)
  | fee key =>
      have filed := @leakCalls_places env context worth earlier known payable state sized input
        listed key
      have keys := recorded.keys key
      rw [total, filed] at keys
      have tracked : Tracks (Parser.parseInput env context state input) (.fee key) ↔
          key ∈ after.inscriptions.keys := by
        simp [Tracks, found]
      rw [tracked, keys]
      constructor
      · rintro (old | ⟨offset, tracked, lost⟩ | born)
        · exact Or.inl ⟨.fee key, ⟨leaked, present, old⟩, rfl⟩
        · refine Or.inl ⟨.output ⟨input.1.outpoint, offset⟩, tracked, ?_⟩
          rw [Place.followInput, if_pos rfl]
          exact lost
        · exact Or.inr born
      · rintro (⟨origin, tracked, followed⟩ | born)
        · cases origin with
          | fee offset =>
              cases followed
              obtain ⟨also, same, old⟩ := tracked
              obtain rfl : leaked = also := by simpa [present] using same
              exact Or.inl old
          | output source =>
              rw [Place.followInput] at followed
              split at followed
              · rename_i spends
                rw [Tracks, spends] at tracked
                exact Or.inr (Or.inl ⟨source.offset, tracked, followed⟩)
              · cases followed
        · exact Or.inr (Or.inr born)

theorem parseInputs_carried (known : context.inputsCum =
      InscriptionSearcher.calcOffsets context.tx context.prevouts)
    (payable : Payable worth context.prevouts context.tx) {inputs : List (TxInput × Nat)}
    (listed : ∀ input ∈ inputs, context.tx.inputs[input.2]? = some input.1) {state : ParseState}
    (sized : Sized worth state.offsets) {leaked : LeakedInscriptions}
    (present : state.leaked = some leaked)
    (total : leaked.totalAmount = earlier + feeOf context.prevouts context.tx)
    (fits : leaked.totalAmount < u64Bound) :
    Sized worth (inputs.foldl (Parser.parseInput env context) state).offsets ∧
      Carried context.prevouts (Parser.inputCalls env context state inputs) 0
        (fun place => inputs.foldl (Place.followInput context.prevouts earlier context.tx) place)
        (Parser.inputBirths env context earlier state inputs) state
        (inputs.foldl (Parser.parseInput env context) state) := by
  induction inputs generalizing state leaked with
  | nil => exact ⟨sized, .refl present⟩
  | cons input rest ih =>
      obtain ⟨inside, carried⟩ := @parseInput_carried env context worth earlier known payable
        state sized leaked present total fits input (listed input List.mem_cons_self)
      obtain ⟨before, next, same, found, _, _, _, added⟩ := carried.charged
      obtain rfl : leaked = before := by simpa [present] using same
      obtain ⟨later, others⟩ := ih (fun input member => listed input (List.mem_cons_of_mem _ member))
        inside found (by omega) (by omega)
      exact ⟨later, carried.trans others⟩

end Input

section Transactions

variable {env : Env} {prevouts : Table OutPoint TxPrevout} {worth : OutPoint → Nat}
  {height created earlier : Nat}

theorem chargeFee_known {tx : Tx} (payable : Payable worth prevouts tx) {state : ParseState}
    {leaked : LeakedInscriptions} (present : state.leaked = some leaked) :
    Parser.chargeFee prevouts state tx = .ok (LeakCall.run prevouts leaked (.txFee tx)) := by
  have all : (tx.inputs.all fun input => (prevouts.get input.outpoint).isSome) = true :=
    List.all_eq_true.mpr payable.known
  rw [Parser.chargeFee, present]
  exact if_pos all

theorem parseTx_charge {tx : Tx} (payable : Payable worth prevouts tx) {state : ParseState}
    {leaked : LeakedInscriptions} (present : state.leaked = some leaked) :
    Parser.parseTx env prevouts height created state tx =
      .ok (tx.inputs.zipIdx.foldl (Parser.parseInput env
        { prevouts, tx, inputsCum := InscriptionSearcher.calcOffsets tx prevouts, height, created })
        { state with
          leaked := some (LeakCall.run prevouts leaked (.txFee tx))
          indexInTx := 0 }) := by
  have charged := chargeFee_known payable present
  rw [Parser.chargeFee, present] at charged
  have fee : leaked.addTxFee tx prevouts = .ok (LeakCall.run prevouts leaked (.txFee tx)) :=
    charged
  rw [Parser.parseTx, if_neg (by simp [payable.ordinary]), present]
  dsimp only
  rw [fee]
  rfl

theorem parseTx_carried {tx : Tx} (payable : Payable worth prevouts tx) {state : ParseState}
    (sized : Sized worth state.offsets) {leaked : LeakedInscriptions}
    (present : state.leaked = some leaked) (total : leaked.totalAmount = earlier)
    (fits : earlier + feeOf prevouts tx < u64Bound) :
    ∃ next, Parser.parseTx env prevouts height created state tx = .ok next ∧
      Sized worth next.offsets ∧
      Carried prevouts (Parser.txCalls env prevouts height created state tx) (feeOf prevouts tx)
        (Place.followTx prevouts earlier tx)
        (Parser.txBirths env prevouts height created earlier state tx) state next := by
  subst total
  obtain ⟨checked, added⟩ := LeakedInscriptions.checkedTxFee_eq payable.funded fits
  have charged := chargeFee_known payable present
  have fee : Carried prevouts [.txFee tx] (feeOf prevouts tx) id [] state { state with
      leaked := some (LeakCall.run prevouts leaked (.txFee tx))
      indexInTx := 0 } := by
    refine ⟨⟨leaked, _, present, rfl, ?_, rfl, ?_, added⟩, ?_⟩
    · rw [List.foldlM_cons, LeakCall.check, checked]
      rfl
    · intro filed key member
      have below := filed key member
      omega
    · intro place
      cases place with
      | output location => simp [Tracks]
      | fee offset => simp [Tracks, present, LeakCall.run]
  obtain ⟨inside, inputs⟩ := @parseInputs_carried env
    { prevouts, tx, inputsCum := InscriptionSearcher.calcOffsets tx prevouts, height, created }
    worth leaked.totalAmount rfl payable tx.inputs.zipIdx
    (fun input listed => List.mem_zipIdx_iff_getElem?.mp listed)
    { state with leaked := some (LeakCall.run prevouts leaked (.txFee tx)), indexInTx := 0 }
    sized _ rfl added (by rw [added]; exact fits)
  refine ⟨_, parseTx_charge payable present, inside, ?_⟩
  have whole := fee.trans inputs
  have follow : (fun place => tx.inputs.zipIdx.foldl
      (Place.followInput prevouts leaked.totalAmount tx) place) ∘ id =
        Place.followTx prevouts leaked.totalAmount tx :=
    funext fun place => followTx_eq prevouts _ tx payable.older place
  rw [follow, Nat.add_zero] at whole
  rw [Parser.txCalls, Parser.txBirths, charged, if_neg (by simp [payable.ordinary])]
  exact whole

theorem parseTxs_carried {txs : List Tx} (payable : ∀ tx ∈ txs, Payable worth prevouts tx)
    {state : ParseState} (sized : Sized worth state.offsets) {leaked : LeakedInscriptions}
    (present : state.leaked = some leaked) (total : leaked.totalAmount = earlier)
    (fits : earlier + feesOf prevouts txs < u64Bound) :
    ∃ next, txs.foldlM (Parser.parseTx env prevouts height created) state = .ok next ∧
      Sized worth next.offsets ∧
      Carried prevouts (Parser.blockCalls env prevouts height created state txs)
        (feesOf prevouts txs) (Place.followTxs prevouts earlier txs)
        (Parser.blockBirths env prevouts height created earlier state txs) state next := by
  induction txs generalizing state leaked earlier with
  | nil => exact ⟨state, rfl, sized, .refl present⟩
  | cons tx rest ih =>
      have split : feesOf prevouts (tx :: rest) = feeOf prevouts tx + feesOf prevouts rest := by
        simp [feesOf]
      rw [split] at fits ⊢
      obtain ⟨middle, parsed, inside, first⟩ := @parseTx_carried env prevouts worth height created
        earlier tx (payable tx List.mem_cons_self) state sized leaked present total (by omega)
      obtain ⟨before, between, same, found, _, _, _, added⟩ := first.charged
      obtain rfl : leaked = before := by simpa [present] using same
      obtain ⟨next, others, later, second⟩ := @ih (earlier + feeOf prevouts tx)
        (fun other listed => payable other (List.mem_cons_of_mem _ listed)) middle inside between
        found (by omega) (by omega)
      refine ⟨next, ?_, later, ?_⟩
      · rw [List.foldlM_cons, parsed]
        exact others
      · rw [Parser.blockCalls, Parser.blockBirths, parsed]
        exact first.trans second

def Place.Within (worth : OutPoint → Nat) (total : Nat) : Place → Prop
  | output location => location.offset < worth location.outpoint
  | fee offset => offset < total

theorem followTx_within {tx : Tx} (payable : Payable worth prevouts tx) {place : Place}
    (within : place.Within worth earlier) :
    (place.followTx prevouts earlier tx).Within worth (earlier + feeOf prevouts tx) := by
  cases place with
  | fee offset => exact Nat.lt_of_lt_of_le within (Nat.le_add_right _ _)
  | output location =>
      rw [Place.followTx]
      split
      · rename_i index spends
        obtain ⟨bound, found, _⟩ := List.findIdx?_eq_some_iff_getElem.mp spends
        have same := of_decide_eq_true found
        have listed : (tx.inputValues prevouts)[index]? =
            some (valueOf prevouts location.outpoint) := by
          rw [Tx.inputValues, List.getElem?_map, List.getElem?_eq_getElem bound, same]
          rfl
        have inside : location.offset < valueOf prevouts location.outpoint := by
          rw [same, ← payable.inputs _ (List.getElem_mem bound), ← same]
          exact within
        have position := positionOf_lt listed inside
        unfold Tx.placeAt
        split
        · rename_i vout offset placed
          obtain ⟨-, value, present, fits⟩ := Segments.find_iff.mp placed
          rw [Tx.outputValues, List.getElem?_map, Option.map_eq_some_iff] at present
          obtain ⟨output, present, rfl⟩ := present
          rw [Place.Within, payable.outputs vout output present]
          exact fits
        · rename_i lost
          have past := Segments.find_eq_none.mp lost
          rw [Place.Within, feeOf]
          omega
      · exact within

theorem followTxs_within {txs : List Tx} (payable : ∀ tx ∈ txs, Payable worth prevouts tx)
    {place : Place} (within : place.Within worth earlier) :
    (place.followTxs prevouts earlier txs).Within worth (earlier + feesOf prevouts txs) := by
  induction txs generalizing earlier place with
  | nil => exact within
  | cons tx rest ih =>
      have first := followTx_within (payable tx List.mem_cons_self) within
      have later := ih (fun other listed => payable other (List.mem_cons_of_mem _ listed)) first
      have split : feesOf prevouts (tx :: rest) = feeOf prevouts tx + feesOf prevouts rest := by
        simp [feesOf]
      rw [Place.followTxs, split, ← Nat.add_assoc]
      exact later

theorem followTxs_unspent {txs : List Tx} {location : Location}
    (unspent : ∀ tx ∈ txs, ∀ input ∈ tx.inputs, input.outpoint ≠ location.outpoint) :
    (Place.output location).followTxs prevouts earlier txs = .output location := by
  induction txs generalizing earlier with
  | nil => rfl
  | cons tx rest ih =>
      have missing : (tx.inputs.findIdx? fun input =>
          decide (location.outpoint = input.outpoint)) = none := by
        rw [List.findIdx?_eq_none_iff]
        intro input listed
        exact decide_eq_false (Ne.symm (unspent tx List.mem_cons_self input listed))
      rw [Place.followTxs, Place.followTx, missing]
      exact ih fun other listed => unspent other (List.mem_cons_of_mem _ listed)

end Transactions

/-! Spent outputs are not tracked any more. -/

section Gone

variable {env : Env} {context : TxContext} {prevouts : Table OutPoint TxPrevout}
  {height created : Nat}

theorem parseInput_get {state : ParseState} {input : TxInput × Nat} {outpoint : OutPoint}
    (foreign : outpoint.txid ≠ context.tx.hash) :
    (Parser.parseInput env context state input).offsets.get outpoint =
      if outpoint = input.1.outpoint then none else state.offsets.get outpoint := by
  have untouched : ∀ (locations : List Location) (offsets : Table OutPoint (Finset Nat)),
      (∀ location ∈ locations, location.outpoint.txid = context.tx.hash) →
      (locations.foldl insertOffset offsets).get outpoint = offsets.get outpoint := by
    intro locations
    induction locations with
    | nil => intros; rfl
    | cons location rest ih =>
        intro offsets own
        have different : outpoint ≠ location.outpoint :=
          fun same => foreign (same ▸ own location List.mem_cons_self)
        rw [List.foldl_cons, ih _ fun other listed => own other (List.mem_cons_of_mem _ listed),
          get_insertOffset, if_neg different]
  rw [(Parser.parseInput_effect state input).1, untouched _ _ fun location listed =>
    (trackedAt_inside state input listed).1, Table.get_remove]

theorem parseInputs_get {inputs : List (TxInput × Nat)} {state : ParseState}
    {outpoint : OutPoint} (foreign : outpoint.txid ≠ context.tx.hash) :
    (inputs.foldl (Parser.parseInput env context) state).offsets.get outpoint =
      if outpoint ∈ inputs.map fun input => input.1.outpoint then none
      else state.offsets.get outpoint := by
  induction inputs generalizing state with
  | nil => rfl
  | cons input rest ih =>
      rw [List.foldl_cons, ih, parseInput_get foreign]
      by_cases now : outpoint = input.1.outpoint
      · simp [now]
      · simp only [now, List.map_cons, List.mem_cons, false_or, if_false]

theorem parseTx_get {tx : Tx} {state next : ParseState}
    (parsed : Parser.parseTx env prevouts height created state tx = .ok next) {outpoint : OutPoint}
    (foreign : outpoint.txid ≠ tx.hash) :
    next.offsets.get outpoint =
      if outpoint ∈ tx.spent then none else state.offsets.get outpoint := by
  unfold Parser.parseTx at parsed
  unfold Tx.spent
  split at parsed
  · rename_i coinbase
    cases parsed
    rw [if_pos coinbase]
    rfl
  · rename_i ordinary
    rw [if_neg ordinary]
    split at parsed
    · cases parsed
    · rename_i leaked present
      cases charged : leaked.addTxFee tx prevouts with
      | error fault =>
          rw [charged] at parsed
          cases parsed
      | ok next =>
          rw [charged] at parsed
          cases parsed
          rw [parseInputs_get foreign]
          have outpoints := congrArg (List.map TxInput.outpoint) (List.zipIdx_map_fst 0 tx.inputs)
          rw [List.map_map] at outpoints
          rw [← outpoints]
          rfl

theorem parseTxs_get {txs : List Tx} {state next : ParseState}
    (parsed : txs.foldlM (Parser.parseTx env prevouts height created) state = .ok next)
    {outpoint : OutPoint} (foreign : outpoint.txid ∉ txs.map Tx.hash) :
    next.offsets.get outpoint =
      if outpoint ∈ txs.flatMap Tx.spent then none else state.offsets.get outpoint := by
  induction txs generalizing state with
  | nil =>
      cases parsed
      rfl
  | cons tx rest ih =>
      rw [List.map_cons, List.mem_cons, not_or] at foreign
      rw [List.foldlM_cons] at parsed
      cases first : Parser.parseTx env prevouts height created state tx with
      | error fault =>
          rw [first] at parsed
          cases parsed
      | ok middle =>
          rw [first] at parsed
          rw [ih parsed foreign.2, parseTx_get first foreign.1, List.flatMap_cons]
          by_cases now : outpoint ∈ tx.spent
          · simp [now]
          · simp [now]

theorem parsed_spent_gone {utxo : Utxo} {txs : List Tx} (valid : ValidTxs env utxo txs)
    (new : NewTo utxo txs) {state next : ParseState}
    (parsed : txs.foldlM (Parser.parseTx env prevouts height created) state = .ok next)
    {outpoint : OutPoint} (spends : outpoint ∈ txs.flatMap Tx.spent) :
    next.offsets.get outpoint = none := by
  induction txs generalizing utxo state with
  | nil => cases spends
  | cons tx rest ih =>
      rw [List.foldlM_cons] at parsed
      cases first : Parser.parseTx env prevouts height created state tx with
      | error fault =>
          rw [first] at parsed
          cases parsed
      | ok middle =>
          rw [first] at parsed
          rw [List.flatMap_cons, List.mem_append] at spends
          rcases spends with now | later
          · have older := new.spent_older valid.1 now
            rw [List.map_cons, List.mem_cons, not_or] at older
            rw [parseTxs_get parsed older.2, parseTx_get first older.1, if_pos now, ite_self]
          · exact ih valid.2 new.tail parsed later

end Gone

end WjkIndexer
