import WjkIndexer.Chain.Types
import WjkIndexer.Library.Bytes
import WjkIndexer.Library.Machine

/-!
Reading of transactions from the bytes of a block file, and their serialization for hashing:
what is read is written back, without the marker, the flag and the witnesses.
-/

namespace WjkIndexer.Blk

open ByteString Machine

inductive ReadError where
  | unexpectedEof
  -- the panic of `Vec::with_capacity`
  | capacityOverflow
  | witness
  deriving DecidableEq, Repr

/-- `isize::MAX`, the most bytes that a vector can hold. -/
def isizeMax : Nat := 2 ^ 63 - 1

/-- `Vec::with_capacity(count)` for elements of `size` bytes. -/
def withCapacity (count size : Nat) : Except ReadError Unit :=
  if count * size ≤ isizeMax then .ok () else .error .capacityOverflow

abbrev Reader (α : Type) := Bytes → Except ReadError (α × Bytes)

def readExact (count : Nat) : Reader Bytes := fun bytes =>
  if count ≤ bytes.length then .ok (bytes.take count, bytes.drop count)
  else .error .unexpectedEof

def readU8 : Reader UInt8
  | [] => .error .unexpectedEof
  | byte :: rest => .ok (byte, rest)

/-- A little-endian number of `width` bytes. -/
def readUInt (width : Nat) : Reader Nat := fun bytes => do
  let (number, rest) ← readExact width bytes
  .ok (ofLeBytes number, rest)

structure VarUint where
  value : Nat
  buf : Bytes
  deriving DecidableEq, Repr

namespace VarUint

def wide (first : UInt8) (width value : Nat) : VarUint where
  value
  buf := first :: leBytes width value

def readFrom : Reader VarUint := fun bytes => do
  let (first, bytes) ← readU8 bytes
  if first ≤ 0xfc then .ok ({ value := first.toNat, buf := [first] }, bytes)
  else
    let width := if first = 0xfd then 2 else if first = 0xfe then 4 else 8
    let (value, bytes) ← readUInt width bytes
    .ok (wide first width value, bytes)

end VarUint

structure TxInput (Witness : Type) where
  txid : Bytes
  vout : Nat
  scriptLen : VarUint
  scriptSig : Bytes
  seqNo : Nat
  witness : Witness

structure TxOutput where
  value : Nat
  scriptLen : VarUint
  scriptPubkey : Bytes
  deriving DecidableEq, Repr

structure RawTx (Witness : Type) where
  version : Nat
  inCount : VarUint
  inputs : List (TxInput Witness)
  outCount : VarUint
  outputs : List TxOutput
  locktime : Nat

structure WitnessCode (Witness : Type) where
  default : Witness
  size : Nat
  consensusDecode : Reader Witness

variable {Witness : Type} (code : WitnessCode Witness)

def readMany {α : Type} (reader : Reader α) : Nat → Reader (List α)
  | 0, bytes => .ok ([], bytes)
  | count + 1, bytes => do
      let (first, bytes) ← reader bytes
      let (rest, bytes) ← readMany reader count bytes
      .ok (first :: rest, bytes)

def readScript (scriptLen : VarUint) : Reader Bytes := readExact (scriptLen.value % 2 ^ 32)

def readTxInput : Reader (TxInput Witness) := fun bytes => do
  let (txid, bytes) ← readExact 32 bytes
  let (vout, bytes) ← readUInt 4 bytes
  let (scriptLen, bytes) ← VarUint.readFrom bytes
  let (scriptSig, bytes) ← readScript scriptLen bytes
  let (seqNo, bytes) ← readUInt 4 bytes
  .ok ({ txid, vout, scriptLen, scriptSig, seqNo, witness := code.default }, bytes)

def readTxInputs (inputCount : Nat) : Reader (List (TxInput Witness)) := fun bytes => do
  withCapacity inputCount (36 + 32 + 24 + 4 + code.size)
  readMany (readTxInput code) inputCount bytes

def readTxOutput : Reader TxOutput := fun bytes => do
  let (value, bytes) ← readUInt 8 bytes
  let (scriptLen, bytes) ← VarUint.readFrom bytes
  let (scriptPubkey, bytes) ← readScript scriptLen bytes
  .ok ({ value, scriptLen, scriptPubkey }, bytes)

def readTxOutputs (outputCount : Nat) : Reader (List TxOutput) := fun bytes => do
  withCapacity outputCount (8 + 32 + 24)
  readMany readTxOutput outputCount bytes

def readWitnesses : List (TxInput Witness) → Reader (List (TxInput Witness))
  | [], bytes => .ok ([], bytes)
  | input :: rest, bytes => do
      let (witness, bytes) ← code.consensusDecode bytes
      let (others, bytes) ← readWitnesses rest bytes
      .ok ({ input with witness } :: others, bytes)

def readInCount : Reader (UInt8 × VarUint) := fun bytes => do
  let (inCount, bytes) ← VarUint.readFrom bytes
  if inCount.value = 0 then do
    let (flags, bytes) ← readU8 bytes
    let (inCount, bytes) ← VarUint.readFrom bytes
    .ok ((flags, inCount), bytes)
  else .ok ((0, inCount), bytes)

def readFlagged (flags : UInt8) (inputs : List (TxInput Witness)) :
    Reader (List (TxInput Witness)) := fun bytes =>
  if flags &&& 1 > 0 then readWitnesses code inputs bytes else .ok (inputs, bytes)

def readTx : Reader (RawTx Witness) := fun bytes => do
  let (version, bytes) ← readUInt 4 bytes
  let ((flags, inCount), bytes) ← readInCount bytes
  let (inputs, bytes) ← readTxInputs code inCount.value bytes
  let (outCount, bytes) ← VarUint.readFrom bytes
  let (outputs, bytes) ← readTxOutputs outCount.value bytes
  let (inputs, bytes) ← readFlagged code flags inputs bytes
  let (locktime, bytes) ← readUInt 4 bytes
  .ok ({ version, inCount, inputs, outCount, outputs, locktime }, bytes)

/-! Serialization. Each vector is created with the capacity that its parts are said to need,
in the arithmetic of 64 bits. -/

def TxInput.toBytes (input : TxInput Witness) : Except ReadError Bytes := do
  withCapacity ((36 + 5 + input.scriptLen.value + 4) % 2 ^ 64) 1
  .ok (input.txid ++ leBytes 4 input.vout ++ input.scriptLen.buf ++ input.scriptSig ++
    leBytes 4 input.seqNo)

def TxOutput.toBytes (output : TxOutput) : Except ReadError Bytes := do
  withCapacity ((8 + 5 + output.scriptLen.value) % 2 ^ 64) 1
  .ok (leBytes 8 output.value ++ output.scriptLen.buf ++ output.scriptPubkey)

structure EvaluatedTxOut (Script : Type) where
  script : Script
  out : TxOutput

structure EvaluatedTx (Witness Script : Type) where
  version : Nat
  inCount : VarUint
  inputs : List (TxInput Witness)
  outCount : VarUint
  outputs : List (EvaluatedTxOut Script)
  locktime : Nat

variable {Script : Type}

def RawTx.evaluate (evalFromBytes : Bytes → Script) (tx : RawTx Witness) :
    EvaluatedTx Witness Script where
  version := tx.version
  inCount := tx.inCount
  inputs := tx.inputs
  outCount := tx.outCount
  outputs := tx.outputs.map fun out => { script := evalFromBytes out.scriptPubkey, out }
  locktime := tx.locktime

def EvaluatedTx.toBytes (tx : EvaluatedTx Witness Script) : Except ReadError Bytes := do
  withCapacity ((4 + tx.inCount.value + tx.outCount.value + 4) % 2 ^ 64) 1
  let inputs ← tx.inputs.mapM TxInput.toBytes
  let outputs ← tx.outputs.mapM fun output => output.out.toBytes
  .ok (leBytes 4 tx.version ++ tx.inCount.buf ++ inputs.flatten ++ tx.outCount.buf ++
    outputs.flatten ++ leBytes 4 tx.locktime)

def EvaluatedTx.doubleSha256 (sha256d : Bytes → Txid) (tx : EvaluatedTx Witness Script) :
    Except ReadError Txid := do
  let bytes ← tx.toBytes
  .ok (sha256d bytes)

end WjkIndexer.Blk
