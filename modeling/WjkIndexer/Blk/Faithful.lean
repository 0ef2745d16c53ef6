import WjkIndexer.Blk.Reader
import WjkIndexer.Library.Sha256

/-!
Reading against serialization: a transaction that is read is serialized to the bytes that were
read, without those that no hash covers, unless a script is said to be too long for memory.
-/

namespace WjkIndexer.Blk

open ByteString Machine

variable {Witness Script : Type} {code : WitnessCode Witness} {bytes rest : Bytes}

/-! What each reader takes from the front. -/

theorem readExact_ok {count : Nat} {taken : Bytes}
    (read : readExact count bytes = .ok (taken, rest)) :
    bytes = taken ++ rest ∧ taken.length = count := by
  unfold readExact at read
  split at read
  · rename_i enough
    cases read
    exact ⟨(List.take_append_drop count bytes).symm, List.length_take_of_le enough⟩
  · cases read

theorem readU8_ok {byte : UInt8} (read : readU8 bytes = .ok (byte, rest)) :
    bytes = byte :: rest := by
  unfold readU8 at read
  split at read
  · cases read
  · cases read
    rfl

theorem readUInt_ok {width number : Nat} (read : readUInt width bytes = .ok (number, rest)) :
    bytes = leBytes width number ++ rest := by
  simp only [readUInt, bind_ok, Prod.exists] at read
  obtain ⟨taken, left, exactly, result⟩ := read
  obtain ⟨rfl, rfl⟩ := readExact_ok exactly
  cases result
  rw [leBytes_ofLeBytes]

theorem VarUint.readFrom_ok {count : VarUint} (read : VarUint.readFrom bytes = .ok (count, rest)) :
    bytes = count.buf ++ rest := by
  simp only [VarUint.readFrom, bind_ok, Prod.exists] at read
  obtain ⟨first, left, head, read⟩ := read
  have shape := readU8_ok head
  split at read
  · cases read
    exact shape
  · simp only [bind_ok, Prod.exists] at read
    obtain ⟨value, tail, wide, result⟩ := read
    cases result
    rw [shape, readUInt_ok wide]
    rfl

theorem readMany_ok {α : Type} {reader : Reader α} {encode : α → Bytes}
    (reads : ∀ bytes value rest, reader bytes = .ok (value, rest) → bytes = encode value ++ rest)
    {count : Nat} {values : List α} (read : readMany reader count bytes = .ok (values, rest)) :
    bytes = (values.map encode).flatten ++ rest := by
  induction count generalizing bytes values with
  | zero =>
      cases read
      rfl
  | succ count ih =>
      simp only [readMany, bind_ok, Prod.exists] at read
      obtain ⟨first, left, head, others, tail, later, result⟩ := read
      cases result
      rw [reads _ _ _ head, ih later, List.map_cons, List.flatten_cons, List.append_assoc]

def TxInput.serialized (input : TxInput Witness) : Bytes :=
  input.txid ++ leBytes 4 input.vout ++ input.scriptLen.buf ++ input.scriptSig ++
    leBytes 4 input.seqNo

def TxOutput.serialized (output : TxOutput) : Bytes :=
  leBytes 8 output.value ++ output.scriptLen.buf ++ output.scriptPubkey

theorem readTxInput_ok {input : TxInput Witness}
    (read : readTxInput code bytes = .ok (input, rest)) : bytes = input.serialized ++ rest := by
  simp only [readTxInput, readScript, bind_ok, Prod.exists] at read
  obtain ⟨txid, first, hash, vout, second, index, scriptLen, third, length, scriptSig, fourth,
    script, seqNo, fifth, sequence, result⟩ := read
  cases result
  obtain ⟨rfl, _⟩ := readExact_ok hash
  obtain rfl := readUInt_ok index
  obtain rfl := VarUint.readFrom_ok length
  obtain ⟨rfl, _⟩ := readExact_ok script
  obtain rfl := readUInt_ok sequence
  simp only [TxInput.serialized, List.append_assoc]

theorem readTxOutput_ok {output : TxOutput} (read : readTxOutput bytes = .ok (output, rest)) :
    bytes = output.serialized ++ rest := by
  simp only [readTxOutput, readScript, bind_ok, Prod.exists] at read
  obtain ⟨value, first, amount, scriptLen, second, length, scriptPubkey, third, script,
    result⟩ := read
  cases result
  obtain rfl := readUInt_ok amount
  obtain rfl := VarUint.readFrom_ok length
  obtain ⟨rfl, _⟩ := readExact_ok script
  simp only [TxOutput.serialized, List.append_assoc]

theorem withCapacity_ok {count size : Nat} {done : Unit} :
    withCapacity count size = .ok done ↔ count * size ≤ isizeMax := by
  unfold withCapacity
  split <;> simp_all

def TakesFront (code : WitnessCode Witness) : Prop :=
  ∀ bytes witness rest, code.consensusDecode bytes = .ok (witness, rest) →
    ∃ stack, bytes = stack ++ rest

def WitnessStacks (code : WitnessCode Witness) :
    List Bytes → List (TxInput Witness) → Prop :=
  List.Forall₂ fun stack input =>
    ∃ rest, code.consensusDecode (stack ++ rest) = .ok (input.witness, rest)

theorem readWitnesses_ok (front : TakesFront code) {inputs done : List (TxInput Witness)}
    (read : readWitnesses code inputs bytes = .ok (done, rest)) :
    ∃ piles, bytes = piles.flatten ++ rest ∧ WitnessStacks code piles done ∧
      done.map TxInput.serialized = inputs.map TxInput.serialized := by
  induction inputs generalizing bytes done with
  | nil =>
      cases read
      exact ⟨[], rfl, .nil, rfl⟩
  | cons input others ih =>
      simp only [readWitnesses, bind_ok, Prod.exists] at read
      obtain ⟨witness, left, decoded, later, tail, remaining, result⟩ := read
      cases result
      obtain ⟨stack, rfl⟩ := front _ _ _ decoded
      obtain ⟨piles, rfl, witnessed, same⟩ := ih remaining
      refine ⟨stack :: piles, by simp, .cons ⟨_, decoded⟩ witnessed, ?_⟩
      rw [List.map_cons, List.map_cons, same]
      rfl

/-! What is written. -/

def TxInput.Fits (input : TxInput Witness) : Prop :=
  (36 + 5 + input.scriptLen.value + 4) % 2 ^ 64 ≤ isizeMax

def TxOutput.Fits (output : TxOutput) : Prop :=
  (8 + 5 + output.scriptLen.value) % 2 ^ 64 ≤ isizeMax

structure RawTx.ScriptsFit (tx : RawTx Witness) : Prop where
  inputs : ∀ input ∈ tx.inputs, input.Fits
  outputs : ∀ output ∈ tx.outputs, output.Fits

theorem TxInput.toBytes_ok {input : TxInput Witness} {written : Bytes} :
    input.toBytes = .ok written ↔ input.Fits ∧ written = input.serialized := by
  simp only [TxInput.toBytes, bind_ok, withCapacity_ok, Nat.mul_one, Except.ok.injEq]
  constructor
  · rintro ⟨_, fits, rfl⟩
    exact ⟨fits, rfl⟩
  · rintro ⟨fits, rfl⟩
    exact ⟨(), fits, rfl⟩

theorem TxOutput.toBytes_ok {output : TxOutput} {written : Bytes} :
    output.toBytes = .ok written ↔ output.Fits ∧ written = output.serialized := by
  simp only [TxOutput.toBytes, bind_ok, withCapacity_ok, Nat.mul_one, Except.ok.injEq]
  constructor
  · rintro ⟨_, fits, rfl⟩
    exact ⟨fits, rfl⟩
  · rintro ⟨fits, rfl⟩
    exact ⟨(), fits, rfl⟩

theorem mapM_ok {α : Type} {write : α → Except ReadError Bytes} {fits : α → Prop}
    {encode : α → Bytes}
    (writes : ∀ value written, write value = .ok written ↔ fits value ∧ written = encode value)
    {values : List α} {all : List Bytes} :
    values.mapM write = .ok all ↔ (∀ value ∈ values, fits value) ∧ all = values.map encode := by
  induction values generalizing all with
  | nil =>
      rw [List.mapM_nil]
      constructor
      · intro same
        cases same
        simp
      · rintro ⟨_, rfl⟩
        rfl
  | cons value others ih =>
      simp only [List.mapM_cons, bind_ok, writes, ih, List.forall_mem_cons, List.map_cons]
      constructor
      · rintro ⟨_, ⟨first, rfl⟩, _, ⟨later, rfl⟩, same⟩
        cases same
        exact ⟨⟨first, later⟩, rfl⟩
      · rintro ⟨⟨first, later⟩, rfl⟩
        exact ⟨_, ⟨first, rfl⟩, _, ⟨later, rfl⟩, rfl⟩

def RawTx.body (tx : RawTx Witness) : Bytes :=
  tx.inCount.buf ++ (tx.inputs.map TxInput.serialized).flatten ++ tx.outCount.buf ++
    (tx.outputs.map TxOutput.serialized).flatten

theorem evaluate_toBytes {tx : RawTx Witness} (evalFromBytes : Bytes → Script)
    (small : 4 + tx.inCount.value + tx.outCount.value + 4 ≤ isizeMax) {written : Bytes} :
    (tx.evaluate evalFromBytes).toBytes = .ok written ↔
      tx.ScriptsFit ∧ written = leBytes 4 tx.version ++ tx.body ++ leBytes 4 tx.locktime := by
  have outputs : ∀ all : List Bytes, ((tx.evaluate evalFromBytes).outputs.mapM fun output =>
      output.out.toBytes) = .ok all ↔
        (∀ output ∈ tx.outputs, output.Fits) ∧ all = tx.outputs.map TxOutput.serialized := by
    intro all
    rw [RawTx.evaluate, List.mapM_map]
    exact mapM_ok fun _ _ => TxOutput.toBytes_ok
  have capacity : (4 + tx.inCount.value + tx.outCount.value + 4) % 2 ^ 64 * 1 ≤ isizeMax := by
    rw [Nat.mul_one, Nat.mod_eq_of_lt]
    · exact small
    · rw [isizeMax] at small
      omega
  simp only [EvaluatedTx.toBytes, bind_ok, withCapacity_ok, outputs]
  constructor
  · rintro ⟨_, _, inputs, written, _, ⟨fitting, rfl⟩, result⟩
    obtain ⟨fits, rfl⟩ := (mapM_ok fun _ _ => TxInput.toBytes_ok).mp written
    cases result
    refine ⟨⟨fits, fitting⟩, ?_⟩
    simp only [RawTx.evaluate, RawTx.body, List.append_assoc]
  · rintro ⟨⟨fits, fitting⟩, rfl⟩
    refine ⟨(), capacity, _, (mapM_ok fun _ _ => TxInput.toBytes_ok).mpr ⟨fits, rfl⟩, _,
      ⟨fitting, rfl⟩, ?_⟩
    simp only [RawTx.evaluate, RawTx.body, List.append_assoc]

/-! The bytes of a transaction, taken apart. -/

structure Parts where
  version : Bytes
  marker : Bytes
  body : Bytes
  witnesses : List Bytes
  locktime : Bytes

namespace Parts

def consumed (parts : Parts) : Bytes :=
  parts.version ++ parts.marker ++ parts.body ++ parts.witnesses.flatten ++ parts.locktime

def stripped (parts : Parts) : Bytes := parts.version ++ parts.body ++ parts.locktime

/-- The parts of the transaction `tx` at the front of `bytes`: after the version a count of
zero is a marker, which the flag follows; an odd flag announces one witness for each input. -/
structure Of (code : WitnessCode Witness) (parts : Parts) (bytes : Bytes) (tx : RawTx Witness) :
    Prop where
  version : parts.version.length = 4
  locktime : parts.locktime.length = 4
  marked : ∃ count rest, VarUint.readFrom (bytes.drop 4) = .ok (count, rest) ∧
    if count.value = 0 then
      ∃ flags : UInt8, parts.marker = count.buf ++ [flags] ∧
        if flags &&& 1 > 0 then WitnessStacks code parts.witnesses tx.inputs
        else parts.witnesses = []
    else parts.marker = [] ∧ parts.witnesses = []

end Parts

def Marked (marker bytes : Bytes) (flags : UInt8) : Prop :=
  ∃ count rest, VarUint.readFrom bytes = .ok (count, rest) ∧
    if count.value = 0 then marker = count.buf ++ [flags] else marker = [] ∧ flags = 0

theorem readInCount_ok {flags : UInt8} {inCount : VarUint}
    (read : readInCount bytes = .ok ((flags, inCount), rest)) :
    ∃ marker, bytes = marker ++ inCount.buf ++ rest ∧ Marked marker bytes flags := by
  simp only [readInCount, bind_ok, Prod.exists] at read
  obtain ⟨count, left, counted, read⟩ := read
  have front := VarUint.readFrom_ok counted
  split at read
  · rename_i zero
    simp only [bind_ok, Prod.exists] at read
    obtain ⟨flag, tail, flagged, again, last, recounted, result⟩ := read
    cases result
    refine ⟨count.buf ++ [flags], ?_, count, left, counted, ?_⟩
    · rw [front, readU8_ok flagged, VarUint.readFrom_ok recounted]
      simp
    · rw [if_pos zero]
  · rename_i positive
    cases read
    exact ⟨[], front, inCount, rest, counted, by rw [if_neg positive]; exact ⟨rfl, rfl⟩⟩

theorem readFlagged_ok (front : TakesFront code) {flags : UInt8}
    {inputs done : List (TxInput Witness)}
    (read : readFlagged code flags inputs bytes = .ok (done, rest)) :
    ∃ piles, bytes = piles.flatten ++ rest ∧
      (if flags &&& 1 > 0 then WitnessStacks code piles done else piles = []) ∧
      done.map TxInput.serialized = inputs.map TxInput.serialized := by
  unfold readFlagged at read
  split at read
  · rename_i flagged
    obtain ⟨piles, split, witnessed, same⟩ := readWitnesses_ok front read
    exact ⟨piles, split, by rwa [if_pos flagged], same⟩
  · rename_i plain
    cases read
    exact ⟨[], rfl, by rw [if_neg plain], rfl⟩

/-- The serialization of a transaction that was read is what was read without the marker, the
flag and the witnesses, and its hash is that of these bytes, exactly when no script is said to
need more than a vector can hold. -/
theorem readTx_faithful (front : TakesFront code) {tx : RawTx Witness}
    (read : readTx code bytes = .ok (tx, rest)) (evalFromBytes : Bytes → Script)
    (sha256d : Bytes → Txid) :
    ∃ parts : Parts, bytes = parts.consumed ++ rest ∧ parts.Of code bytes tx ∧
      ((tx.evaluate evalFromBytes).toBytes = .ok parts.stripped ∧
        (tx.evaluate evalFromBytes).doubleSha256 sha256d = .ok (sha256d parts.stripped) ↔
          tx.ScriptsFit) := by
  simp only [readTx, bind_ok, Prod.exists] at read
  obtain ⟨version, first, versioned, flags, inCount, second, counted, inputs, third, readInputs,
    outCount, fourth, countedOut, outputs, fifth, readOutputs, done, sixth, flagged, locktime,
    seventh, locked, result⟩ := read
  cases result
  -- the inputs and outputs, and that there is room to count them
  simp only [readTxInputs, bind_ok, withCapacity_ok] at readInputs
  obtain ⟨_, roomIn, readInputs⟩ := readInputs
  simp only [readTxOutputs, bind_ok, withCapacity_ok] at readOutputs
  obtain ⟨_, roomOut, readOutputs⟩ := readOutputs
  have small : 4 + inCount.value + outCount.value + 4 ≤ isizeMax := by
    have least : inCount.value * 96 ≤ inCount.value * (36 + 32 + 24 + 4 + code.size) :=
      Nat.mul_le_mul_left _ (by omega)
    simp only [isizeMax] at roomIn roomOut ⊢
    omega
  have header := readUInt_ok versioned
  obtain ⟨marker, split, marked⟩ := readInCount_ok counted
  obtain ⟨piles, witnessed, stacked, same⟩ := readFlagged_ok front flagged
  have afterInputs := readMany_ok (fun _ _ _ => readTxInput_ok) readInputs
  have afterCount := VarUint.readFrom_ok countedOut
  have afterOutputs := readMany_ok (fun _ _ _ => readTxOutput_ok) readOutputs
  have afterAll := readUInt_ok locked
  let tx : RawTx Witness := ⟨version, inCount, done, outCount, outputs, locktime⟩
  refine ⟨⟨leBytes 4 version, marker, tx.body, piles, leBytes 4 locktime⟩, ?_, ?_, ?_⟩
  · rw [header, split, afterInputs, afterCount, afterOutputs, witnessed, afterAll]
    simp only [Parts.consumed, RawTx.body, tx, same, List.append_assoc]
  · refine {
      version := length_leBytes _ _
      locktime := length_leBytes _ _
      marked := ?_ }
    obtain ⟨count, left, recounted, shape⟩ := marked
    refine ⟨count, left, ?_, ?_⟩
    · rw [header, List.drop_left' (length_leBytes 4 version), recounted]
    · by_cases zero : count.value = 0
      · rw [if_pos zero] at shape ⊢
        exact ⟨flags, shape, stacked⟩
      · rw [if_neg zero] at shape ⊢
        refine ⟨shape.1, ?_⟩
        rw [shape.2, if_neg (by decide)] at stacked
        exact stacked
  · have written := @evaluate_toBytes _ _ tx evalFromBytes small
      (leBytes 4 version ++ tx.body ++ leBytes 4 locktime)
    constructor
    · rintro ⟨serialized, _⟩
      exact (written.mp serialized).1
    · intro fits
      have serialized := written.mpr ⟨fits, rfl⟩
      exact ⟨serialized, bind_ok.mpr ⟨_, serialized, rfl⟩⟩

namespace Sample

def witness : WitnessCode (List Bytes) where
  default := []
  size := 40
  consensusDecode bytes := do
    let (count, bytes) ← VarUint.readFrom bytes
    readMany (fun bytes => do
      let (length, bytes) ← VarUint.readFrom bytes
      readExact length.value bytes) count.value bytes

theorem witness_takesFront : TakesFront witness := by
  intro bytes items rest decoded
  simp only [witness, bind_ok, Prod.exists] at decoded
  obtain ⟨count, left, counted, read⟩ := decoded
  have front := VarUint.readFrom_ok counted
  suffices general : ∀ (number : Nat) (left : Bytes) (items : List Bytes),
      readMany (fun bytes => do
        let (length, bytes) ← VarUint.readFrom bytes
        readExact length.value bytes) number left = .ok (items, rest) →
      ∃ taken, left = taken ++ rest by
    obtain ⟨taken, rfl⟩ := general _ _ _ read
    exact ⟨count.buf ++ taken, by rw [front, List.append_assoc]⟩
  intro number
  induction number with
  | zero =>
      intro left items read
      cases read
      exact ⟨[], rfl⟩
  | succ number ih =>
      intro left items read
      simp only [readMany, bind_ok, Prod.exists] at read
      obtain ⟨item, next, ⟨length, tail, lengthRead, itemRead⟩, others, last, later, result⟩ := read
      cases result
      obtain ⟨taken, rfl⟩ := ih _ _ later
      obtain ⟨rfl, _⟩ := readExact_ok itemRead
      exact ⟨length.buf ++ (item ++ taken), by
        rw [VarUint.readFrom_ok lengthRead]; simp only [List.append_assoc]⟩

def txBytes (marker scriptLen witnesses : Bytes) : Bytes :=
  [1, 0, 0, 0] ++ marker ++ [1] ++ List.replicate 36 7 ++ [0] ++ [255, 255, 255, 255] ++ [1] ++
    [9, 0, 0, 0, 0, 0, 0, 0] ++ scriptLen ++ [81, 82, 83] ++ witnesses ++ [0, 0, 0, 0]

def sha256d (bytes : Bytes) : Txid :=
  Sha256.digest (beBytes 32 (Sha256.digest bytes).toNat)

def segwitTx : Bytes := txBytes [0, 1] [3] [1, 2, 5, 6]

def longTx : Bytes := txBytes [] [255, 3, 0, 0, 0, 0, 0, 0, 128] []

end Sample

theorem segwit_faithful :
    ∃ tx, readTx Sample.witness Sample.segwitTx = .ok (tx, []) ∧
      ∃ parts : Parts, Sample.segwitTx = parts.consumed ++ [] ∧
        parts.Of Sample.witness Sample.segwitTx tx ∧
        (tx.evaluate id).doubleSha256 Sample.sha256d = .ok (Sample.sha256d parts.stripped) := by
  obtain ⟨tx, read, inputs, outputs⟩ : ∃ tx, readTx Sample.witness Sample.segwitTx = .ok (tx, []) ∧
      (∀ input ∈ tx.inputs, input.Fits) ∧ ∀ output ∈ tx.outputs, output.Fits := by
    have ran : (readTx Sample.witness Sample.segwitTx).toOption.any (fun result =>
        decide (result.2 = [] ∧
          (∀ input ∈ result.1.inputs,
            (36 + 5 + input.scriptLen.value + 4) % 2 ^ 64 ≤ isizeMax) ∧
          ∀ output ∈ result.1.outputs, (8 + 5 + output.scriptLen.value) % 2 ^ 64 ≤ isizeMax)) =
          true := by
      decide +kernel
    obtain ⟨⟨tx, rest⟩, read, holds⟩ := (Option.any_eq_true _ _).mp ran
    obtain ⟨rfl, fits⟩ := of_decide_eq_true holds
    exact ⟨tx, toOption_some.mp read, fits⟩
  obtain ⟨parts, split, apart, faithful⟩ :=
    readTx_faithful Sample.witness_takesFront read (id : Bytes → Bytes) Sample.sha256d
  exact ⟨tx, read, parts, split, apart, (faithful.mpr ⟨inputs, outputs⟩).2⟩

/-- A transaction is read whose serialization asks for a vector of more than `isize::MAX`. -/
theorem long_unfaithful :
    ∃ tx, readTx Sample.witness Sample.longTx = .ok (tx, []) ∧
      (tx.evaluate (id : Bytes → Bytes)).toBytes = .error .capacityOverflow := by
  have ran : (readTx Sample.witness Sample.longTx).toOption.any (fun result =>
      decide (result.2 = [] ∧ failureOf (result.1.evaluate (id : Bytes → Bytes)).toBytes =
        some .capacityOverflow)) = true := by
    decide +kernel
  obtain ⟨⟨tx, rest⟩, read, holds⟩ := (Option.any_eq_true _ _).mp ran
  obtain ⟨rfl, failed⟩ := of_decide_eq_true holds
  exact ⟨tx, toOption_some.mp read, failureOf_some.mp failed⟩

end WjkIndexer.Blk
