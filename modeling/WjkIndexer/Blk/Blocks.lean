import WjkIndexer.Blk.Faithful
import WjkIndexer.Library.Recognizes

/-!
Reading of whole blocks from a block file: the header, the proof of merged mining when the version
announces one, and the transactions. What is read is the form in which a node writes a block, and a
block that is cut off is refused.
-/

namespace WjkIndexer.Blk.BlkFile

open ByteString Machine Recognition

structure BlockHeader where
  version : Nat
  prevHash : Bytes
  merkleRoot : Bytes
  timestamp : Nat
  bits : Nat
  nonce : Nat
  deriving DecidableEq, Repr

structure MerkleBranch where
  hashes : List Bytes
  sideMask : Nat
  deriving DecidableEq, Repr

structure AuxPowExtension (Witness : Type) where
  coinbaseTx : RawTx Witness
  blockHash : Bytes
  coinbaseBranch : MerkleBranch
  blockchainBranch : MerkleBranch
  parentBlock : BlockHeader

/-- What `Block::new` is called with. -/
structure RawBlock (Witness : Type) where
  size : Nat
  header : BlockHeader
  auxPowExtension : Option (AuxPowExtension Witness)
  txCount : VarUint
  txs : List (RawTx Witness)

structure Hashed (Value : Type) where
  hash : Hash256
  value : Value

structure Block (Witness Script : Type) where
  size : Nat
  header : Hashed BlockHeader
  auxPowExtension : Option (AuxPowExtension Witness)
  txCount : VarUint
  txs : List (Hashed (EvaluatedTx Witness Script))

def BlockHeader.toBytes (header : BlockHeader) : Bytes :=
  leBytes 4 header.version ++ header.prevHash ++ header.merkleRoot ++
    leBytes 4 header.timestamp ++ leBytes 4 header.bits ++ leBytes 4 header.nonce

def BlockHeader.merged (header : BlockHeader) : Bool := header.version &&& (1 <<< 8) ≠ 0

variable {Witness : Type} (code : WitnessCode Witness)

def read256Hash : Reader Bytes := readExact 32

def readBlockHeader : Reader BlockHeader := fun bytes => do
  let (version, bytes) ← readUInt 4 bytes
  let (prevHash, bytes) ← read256Hash bytes
  let (merkleRoot, bytes) ← read256Hash bytes
  let (timestamp, bytes) ← readUInt 4 bytes
  let (bits, bytes) ← readUInt 4 bytes
  let (nonce, bytes) ← readUInt 4 bytes
  .ok ({ version, prevHash, merkleRoot, timestamp, bits, nonce }, bytes)

def readMerkleBranch : Reader MerkleBranch := fun bytes => do
  let (branchLength, bytes) ← VarUint.readFrom bytes
  let (hashes, bytes) ← readMany read256Hash branchLength.value bytes
  let (sideMask, bytes) ← readUInt 4 bytes
  .ok ({ hashes, sideMask }, bytes)

def readAuxPowExtension : Reader (AuxPowExtension Witness) := fun bytes => do
  let (coinbaseTx, bytes) ← readTx code bytes
  let (blockHash, bytes) ← read256Hash bytes
  let (coinbaseBranch, bytes) ← readMerkleBranch bytes
  let (blockchainBranch, bytes) ← readMerkleBranch bytes
  let (parentBlock, bytes) ← readBlockHeader bytes
  .ok ({ coinbaseTx, blockHash, coinbaseBranch, blockchainBranch, parentBlock }, bytes)

def readExtensionIf (merged : Bool) : Reader (Option (AuxPowExtension Witness)) := fun bytes =>
  if merged then do
    let (extension, bytes) ← readAuxPowExtension code bytes
    .ok (some extension, bytes)
  else .ok (none, bytes)

def readTxs (txCount : Nat) : Reader (List (RawTx Witness)) := readMany (readTx code) txCount

def readRawBlock (size : Nat) : Reader (RawBlock Witness) := fun bytes => do
  let (header, bytes) ← readBlockHeader bytes
  let (auxPowExtension, bytes) ← readExtensionIf code header.merged bytes
  let (txCount, bytes) ← VarUint.readFrom bytes
  let (txs, bytes) ← readTxs code txCount.value bytes
  .ok ({ size, header, auxPowExtension, txCount, txs }, bytes)

section Hashes

variable {Script : Type} (evalFromBytes : Bytes → Script) (sha256d : Bytes → Hash256)

/-- `Hashed::double_sha256` of a transaction, which is serialized for it. -/
def hashedTx (tx : RawTx Witness) : Except ReadError (Hashed (EvaluatedTx Witness Script)) := do
  let hash ← (tx.evaluate evalFromBytes).doubleSha256 sha256d
  .ok { hash, value := tx.evaluate evalFromBytes }

def Block.new (raw : RawBlock Witness) : Except ReadError (Block Witness Script) := do
  let txs ← raw.txs.mapM (hashedTx evalFromBytes sha256d)
  .ok {
    size := raw.size
    header := { hash := sha256d raw.header.toBytes, value := raw.header }
    auxPowExtension := raw.auxPowExtension
    txCount := raw.txCount
    txs }

def readBlock (size : Nat) : Reader (Block Witness Script) := fun bytes => do
  let (raw, bytes) ← readRawBlock code size bytes
  let block ← Block.new evalFromBytes sha256d raw
  .ok (block, bytes)

/-- `BlkFile::read_block` from the place of the size on. -/
def readSizedBlock : Reader (Block Witness Script) := fun bytes => do
  let (size, bytes) ← readUInt 4 bytes
  readBlock code evalFromBytes sha256d size bytes

end Hashes

/-! The forms in which values are written. -/

inductive Spelled : VarUint → Prop where
  | short {byte : UInt8} (small : byte ≤ 0xfc) : Spelled { value := byte.toNat, buf := [byte] }
  | wide {first : UInt8} {width value : Nat}
      (announced : first = 0xfd ∧ width = 2 ∨ first = 0xfe ∧ width = 4 ∨ first = 0xff ∧ width = 8)
      (fits : value < 256 ^ width) : Spelled (.wide first width value)

/-- How long a script is, by the length that is announced: the reader takes a word of it. -/
def AsRead (announced length : Nat) : Prop := length = announced % 2 ^ 32

/-- A script is as long as announced. No script has 4 GiB. -/
def AsWritten (announced length : Nat) : Prop := length = announced ∧ announced < 2 ^ 32

variable (held : Nat → Nat → Prop)

structure InputFits (input : TxInput Witness) : Prop where
  txid : input.txid.length = 32
  vout : input.vout < 256 ^ 4
  scriptLen : Spelled input.scriptLen
  scriptSig : held input.scriptLen.value input.scriptSig.length
  seqNo : input.seqNo < 256 ^ 4

structure OutputFits (output : TxOutput) : Prop where
  value : output.value < 256 ^ 8
  scriptLen : Spelled output.scriptLen
  scriptPubkey : held output.scriptLen.value output.scriptPubkey.length

structure TxFits (tx : RawTx Witness) : Prop where
  version : tx.version < 256 ^ 4
  inCount : Spelled tx.inCount
  inputs : tx.inputs.length = tx.inCount.value ∧ ∀ input ∈ tx.inputs, InputFits held input
  inputsHeld : tx.inCount.value * (36 + 32 + 24 + 4 + code.size) ≤ isizeMax
  outCount : Spelled tx.outCount
  outputs : tx.outputs.length = tx.outCount.value ∧ ∀ output ∈ tx.outputs, OutputFits held output
  outputsHeld : tx.outCount.value * (8 + 32 + 24) ≤ isizeMax
  locktime : tx.locktime < 256 ^ 4

inductive MarkerForm : Bytes → UInt8 → VarUint → Prop where
  | plain {inCount : VarUint} (inputs : inCount.value ≠ 0) : MarkerForm [] 0 inCount
  | marked {zero inCount : VarUint} {flags : UInt8} (spelled : Spelled zero)
      (empty : zero.value = 0) : MarkerForm (zero.buf ++ [flags]) flags inCount

def WitnessForm (stack : Bytes → Witness → Prop) (flags : UInt8) (piles : List Bytes)
    (witnesses : List Witness) : Prop :=
  if flags &&& 1 > 0 then List.Forall₂ stack piles witnesses
  else piles = [] ∧ ∀ witness ∈ witnesses, witness = code.default

def TxForm (stack : Bytes → Witness → Prop) (front : Bytes) (tx : RawTx Witness) : Prop :=
  TxFits code held tx ∧ ∃ marker flags piles, MarkerForm marker flags tx.inCount ∧
    WitnessForm code stack flags piles (tx.inputs.map TxInput.witness) ∧
    front = leBytes 4 tx.version ++ marker ++ tx.body ++ piles.flatten ++ leBytes 4 tx.locktime

structure HeaderFits (header : BlockHeader) : Prop where
  version : header.version < 256 ^ 4
  prevHash : header.prevHash.length = 32
  merkleRoot : header.merkleRoot.length = 32
  timestamp : header.timestamp < 256 ^ 4
  bits : header.bits < 256 ^ 4
  nonce : header.nonce < 256 ^ 4

def BranchForm (front : Bytes) (branch : MerkleBranch) : Prop :=
  (∀ hash ∈ branch.hashes, hash.length = 32) ∧ branch.sideMask < 256 ^ 4 ∧
    ∃ length, Spelled length ∧ length.value = branch.hashes.length ∧
      front = length.buf ++ branch.hashes.flatten ++ leBytes 4 branch.sideMask

def ExtensionForm (stack : Bytes → Witness → Prop) (front : Bytes)
    (extension : AuxPowExtension Witness) : Prop :=
  extension.blockHash.length = 32 ∧ HeaderFits extension.parentBlock ∧
    ∃ coinbase left right, TxForm code held stack coinbase extension.coinbaseTx ∧
      BranchForm left extension.coinbaseBranch ∧ BranchForm right extension.blockchainBranch ∧
      front = coinbase ++ extension.blockHash ++ left ++ right ++ extension.parentBlock.toBytes

def MergedForm (stack : Bytes → Witness → Prop) (merged : Bool) (front : Bytes) :
    Option (AuxPowExtension Witness) → Prop
  | some extension => merged = true ∧ ExtensionForm code held stack front extension
  | none => merged = false ∧ front = []

def BlockForm (stack : Bytes → Witness → Prop) (front : Bytes) (block : RawBlock Witness) : Prop :=
  HeaderFits block.header ∧ Spelled block.txCount ∧ ∃ extension txs,
    MergedForm code held stack block.header.merged extension block.auxPowExtension ∧
    List.Forall₂ (TxForm code held stack) txs block.txs ∧ block.txs.length = block.txCount.value ∧
    front = block.header.toBytes ++ extension ++ block.txCount.buf ++ txs.flatten

section Readers

variable {code} {stack : Bytes → Witness → Prop} {bytes rest : Bytes}

theorem readExact_iff {count : Nat} {taken : Bytes} :
    readExact count bytes = .ok (taken, rest) ↔ bytes = taken ++ rest ∧ taken.length = count := by
  constructor
  · exact readExact_ok
  · rintro ⟨rfl, rfl⟩
    simp [readExact]

theorem readU8_iff {byte : UInt8} : readU8 bytes = .ok (byte, rest) ↔ bytes = byte :: rest := by
  constructor
  · exact readU8_ok
  · rintro rfl
    rfl

theorem ofLeBytes_lt (bytes : Bytes) : ofLeBytes bytes < 256 ^ bytes.length := by
  induction bytes with
  | nil => decide
  | cons byte rest ih =>
      have small := byte.toNat_lt
      rw [ofLeBytes, List.length_cons, Nat.pow_succ]
      omega

theorem readUInt_iff {width number : Nat} :
    readUInt width bytes = .ok (number, rest) ↔
      bytes = leBytes width number ++ rest ∧ number < 256 ^ width := by
  simp only [readUInt, bind_ok, Prod.exists, readExact_iff, Except.ok.injEq, Prod.mk.injEq]
  constructor
  · rintro ⟨taken, left, ⟨rfl, rfl⟩, rfl, rfl⟩
    exact ⟨by rw [leBytes_ofLeBytes], ofLeBytes_lt taken⟩
  · rintro ⟨rfl, fits⟩
    exact ⟨_, _, ⟨rfl, length_leBytes _ _⟩, ofLeBytes_leBytes fits, rfl⟩

theorem readFrom_iff {count : VarUint} :
    VarUint.readFrom bytes = .ok (count, rest) ↔ bytes = count.buf ++ rest ∧ Spelled count := by
  simp only [VarUint.readFrom, bind_ok, Prod.exists, readU8_iff]
  constructor
  · rintro ⟨first, left, rfl, read⟩
    split at read
    · rename_i small
      cases read
      exact ⟨rfl, .short small⟩
    · rename_i large
      simp only [bind_ok, Prod.exists, readUInt_iff, Except.ok.injEq, Prod.mk.injEq] at read
      obtain ⟨value, tail, ⟨shape, fits⟩, rfl, rfl⟩ := read
      refine ⟨by rw [shape]; rfl, .wide ?_ fits⟩
      by_cases two : first = 0xfd
      · exact Or.inl ⟨two, by simp [two]⟩
      · by_cases four : first = 0xfe
        · exact Or.inr (Or.inl ⟨four, by simp [four]⟩)
        · refine Or.inr (Or.inr ⟨?_, by simp [two, four]⟩)
          simp only [← UInt8.toNat_inj, UInt8.le_iff_toNat_le] at two four large ⊢
          have bound := first.toNat_lt
          simp at two four large ⊢
          omega
  · rintro ⟨rfl, spelled⟩
    cases spelled with
    | @short byte small => exact ⟨byte, rest, rfl, by rw [if_pos small]⟩
    | @wide first width value announced fits =>
        refine ⟨first, leBytes width value ++ rest, rfl, ?_⟩
        rcases announced with ⟨rfl, rfl⟩ | ⟨rfl, rfl⟩ | ⟨rfl, rfl⟩
        all_goals
          rw [if_neg (by decide)]
          exact bind_ok.mpr ⟨_, readUInt_iff.mpr ⟨rfl, fits⟩, rfl⟩

theorem readMany_recognizes {α : Type} {reader : Reader α} {form : Bytes → α → Prop}
    (recognizes : Recognizes reader form) (count : Nat) :
    Recognizes (readMany reader count) fun front values =>
      values.length = count ∧ ∃ parts, List.Forall₂ form parts values ∧ front = parts.flatten := by
  induction count with
  | zero =>
      intro input values rest
      constructor
      · intro read
        cases read
        exact ⟨[], ⟨rfl, [], .nil, rfl⟩, rfl⟩
      · rintro ⟨_, ⟨empty, parts, formed, rfl⟩, rfl⟩
        obtain rfl := List.length_eq_zero_iff.mp empty
        cases formed
        rfl
  | succ count ih =>
      intro input values rest
      simp only [readMany, bind_ok, Prod.exists, recognizes _ _ _, ih _ _ _, Except.ok.injEq,
        Prod.mk.injEq]
      constructor
      · rintro ⟨first, _, ⟨head, formed, rfl⟩, others, _, ⟨_, ⟨length, parts, all, rfl⟩, rfl⟩,
          rfl, rfl⟩
        exact ⟨head ++ parts.flatten, ⟨by rw [List.length_cons, length], head :: parts,
          .cons formed all, rfl⟩, (List.append_assoc _ _ _).symm⟩
      · rintro ⟨_, ⟨length, parts, all, rfl⟩, rfl⟩
        cases all with
        | nil => cases length
        | @cons head first parts others formed all =>
            refine ⟨first, parts.flatten ++ rest, ⟨head, formed, ?_⟩, others, rest,
              ⟨parts.flatten, ⟨Nat.succ.inj length, parts, all, rfl⟩, rfl⟩, rfl, rfl⟩
            rw [List.flatten_cons, List.append_assoc]

theorem forall₂_encoded {α : Type} {encode : α → Bytes} {fits : α → Prop} {parts : List Bytes}
    {values : List α} :
    List.Forall₂ (fun front value => front = encode value ∧ fits value) parts values ↔
      parts = values.map encode ∧ ∀ value ∈ values, fits value := by
  induction values generalizing parts with
  | nil => simp
  | cons value rest ih =>
      rw [List.forall₂_cons_right_iff]
      constructor
      · rintro ⟨_, others, ⟨rfl, own⟩, later, rfl⟩
        obtain ⟨rfl, all⟩ := ih.mp later
        exact ⟨rfl, List.forall_mem_cons.mpr ⟨own, all⟩⟩
      · rintro ⟨rfl, all⟩
        obtain ⟨own, later⟩ := List.forall_mem_cons.mp all
        exact ⟨_, _, ⟨rfl, own⟩, ih.mpr ⟨rfl, later⟩, rfl⟩

theorem readMany_iff {α : Type} {reader : Reader α} {encode : α → Bytes} {fits : α → Prop}
    (reads : ∀ bytes value rest, reader bytes = .ok (value, rest) ↔
      bytes = encode value ++ rest ∧ fits value) {count : Nat} {values : List α} :
    readMany reader count bytes = .ok (values, rest) ↔
      bytes = (values.map encode).flatten ++ rest ∧ values.length = count ∧
        ∀ value ∈ values, fits value := by
  have recognizes : Recognizes reader fun front value => front = encode value ∧ fits value := by
    intro input value rest
    rw [reads]
    constructor
    · rintro ⟨rfl, own⟩
      exact ⟨_, ⟨rfl, own⟩, rfl⟩
    · rintro ⟨_, ⟨rfl, own⟩, rfl⟩
      exact ⟨rfl, own⟩
  rw [readMany_recognizes recognizes]
  simp only [forall₂_encoded]
  constructor
  · rintro ⟨_, ⟨length, _, ⟨rfl, all⟩, rfl⟩, rfl⟩
    exact ⟨rfl, length, all⟩
  · rintro ⟨rfl, length, all⟩
    exact ⟨_, ⟨length, _, ⟨rfl, all⟩, rfl⟩, rfl⟩

theorem readTxInput_iff {input : TxInput Witness} :
    readTxInput code bytes = .ok (input, rest) ↔
      bytes = input.serialized ++ rest ∧ InputFits AsRead input ∧ input.witness = code.default := by
  simp only [readTxInput, readScript, bind_ok, Prod.exists, readExact_iff, readUInt_iff,
    readFrom_iff, Except.ok.injEq, Prod.mk.injEq]
  constructor
  · rintro ⟨txid, _, ⟨rfl, hash⟩, vout, _, ⟨rfl, index⟩, scriptLen, _, ⟨rfl, length⟩, scriptSig, _,
      ⟨rfl, script⟩, seqNo, _, ⟨rfl, sequence⟩, rfl, rfl⟩
    refine ⟨?_, ⟨hash, index, length, script, sequence⟩, rfl⟩
    simp only [TxInput.serialized, List.append_assoc]
  · rintro ⟨rfl, fits, plain⟩
    obtain ⟨txid, vout, scriptLen, scriptSig, seqNo, witness⟩ := input
    cases plain
    refine ⟨txid, _, ⟨?_, fits.txid⟩, vout, _, ⟨rfl, fits.vout⟩, scriptLen, _,
      ⟨rfl, fits.scriptLen⟩, scriptSig, _, ⟨rfl, fits.scriptSig⟩, seqNo, rest, ⟨rfl, fits.seqNo⟩,
      rfl, rfl⟩
    simp only [TxInput.serialized, List.append_assoc]

theorem readTxOutput_iff {output : TxOutput} :
    readTxOutput bytes = .ok (output, rest) ↔
      bytes = output.serialized ++ rest ∧ OutputFits AsRead output := by
  simp only [readTxOutput, readScript, bind_ok, Prod.exists, readExact_iff, readUInt_iff,
    readFrom_iff, Except.ok.injEq, Prod.mk.injEq]
  constructor
  · rintro ⟨value, _, ⟨rfl, amount⟩, scriptLen, _, ⟨rfl, length⟩, scriptPubkey, _, ⟨rfl, script⟩,
      rfl, rfl⟩
    refine ⟨?_, ⟨amount, length, script⟩⟩
    simp only [TxOutput.serialized, List.append_assoc]
  · rintro ⟨rfl, fits⟩
    refine ⟨output.value, _, ⟨?_, fits.value⟩, output.scriptLen, _, ⟨rfl, fits.scriptLen⟩,
      output.scriptPubkey, rest, ⟨rfl, fits.scriptPubkey⟩, rfl, rfl⟩
    simp only [TxOutput.serialized, List.append_assoc]

theorem readTxInputs_iff {count : Nat} {inputs : List (TxInput Witness)} :
    readTxInputs code count bytes = .ok (inputs, rest) ↔
      count * (36 + 32 + 24 + 4 + code.size) ≤ isizeMax ∧
        bytes = (inputs.map TxInput.serialized).flatten ++ rest ∧ inputs.length = count ∧
          ∀ input ∈ inputs, InputFits AsRead input ∧ input.witness = code.default := by
  have each : ∀ bytes input rest, readTxInput code bytes = .ok (input, rest) ↔
      bytes = input.serialized ++ rest ∧ InputFits AsRead input ∧ input.witness = code.default :=
    fun _ _ _ => readTxInput_iff
  simp only [readTxInputs, bind_ok, withCapacity_ok, readMany_iff each, exists_const]

theorem readTxOutputs_iff {count : Nat} {outputs : List TxOutput} :
    readTxOutputs count bytes = .ok (outputs, rest) ↔
      count * (8 + 32 + 24) ≤ isizeMax ∧
        bytes = (outputs.map TxOutput.serialized).flatten ++ rest ∧ outputs.length = count ∧
          ∀ output ∈ outputs, OutputFits AsRead output := by
  have each : ∀ bytes output rest, readTxOutput bytes = .ok (output, rest) ↔
      bytes = output.serialized ++ rest ∧ OutputFits AsRead output := fun _ _ _ => readTxOutput_iff
  simp only [readTxOutputs, bind_ok, withCapacity_ok, readMany_iff each, exists_const]

theorem readInCount_iff {flags : UInt8} {inCount : VarUint} :
    readInCount bytes = .ok ((flags, inCount), rest) ↔
      Spelled inCount ∧ ∃ marker, MarkerForm marker flags inCount ∧
        bytes = marker ++ (inCount.buf ++ rest) := by
  simp only [readInCount, bind_ok, Prod.exists, readFrom_iff]
  constructor
  · rintro ⟨count, left, ⟨rfl, spelled⟩, read⟩
    split at read
    · rename_i empty
      simp only [bind_ok, Prod.exists, readU8_iff, readFrom_iff, Except.ok.injEq,
        Prod.mk.injEq] at read
      obtain ⟨byte, _, rfl, again, _, ⟨rfl, respelled⟩, ⟨rfl, rfl⟩, rfl⟩ := read
      exact ⟨respelled, _, .marked spelled empty, by simp⟩
    · rename_i filled
      cases read
      exact ⟨spelled, [], .plain filled, rfl⟩
  · rintro ⟨spelled, marker, form, rfl⟩
    cases form with
    | plain filled => exact ⟨inCount, rest, ⟨rfl, spelled⟩, by rw [if_neg filled]⟩
    | @marked zero _ _ begins empty =>
        refine ⟨zero, flags :: (inCount.buf ++ rest), ⟨by simp, begins⟩, ?_⟩
        simp only [if_pos empty, bind_ok, Prod.exists, readU8_iff, readFrom_iff]
        exact ⟨flags, _, rfl, inCount, rest, ⟨rfl, spelled⟩, rfl⟩

def cleared (code : WitnessCode Witness) (input : TxInput Witness) : TxInput Witness :=
  { input with witness := code.default }

theorem cleared_eq {inputs : List (TxInput Witness)}
    (plain : ∀ input ∈ inputs, input.witness = code.default) :
    inputs.map (cleared code) = inputs := by
  refine (List.map_congr_left ?_).trans (List.map_id inputs)
  intro input member
  rw [cleared, ← plain input member]
  rfl

theorem readWitnesses_iff (decodes : Recognizes code.consensusDecode stack)
    {inputs done : List (TxInput Witness)} :
    readWitnesses code inputs bytes = .ok (done, rest) ↔
      done.map (cleared code) = inputs.map (cleared code) ∧ ∃ piles,
        List.Forall₂ stack piles (done.map TxInput.witness) ∧ bytes = piles.flatten ++ rest := by
  induction inputs generalizing bytes rest done with
  | nil =>
      constructor
      · intro read
        cases read
        exact ⟨rfl, [], .nil, rfl⟩
      · rintro ⟨same, piles, formed, rfl⟩
        obtain rfl := List.map_eq_nil_iff.mp same
        cases formed
        rfl
  | cons input inputs ih =>
      simp only [readWitnesses, bind_ok, Prod.exists, decodes _ _ _, ih, Except.ok.injEq,
        Prod.mk.injEq]
      constructor
      · rintro ⟨witness, _, ⟨pile, formed, rfl⟩, others, _, ⟨same, piles, all, rfl⟩, rfl, rfl⟩
        refine ⟨?_, pile :: piles, .cons formed all, (List.append_assoc _ _ _).symm⟩
        rw [List.map_cons, List.map_cons, same]
        rfl
      · rintro ⟨same, piles, formed, rfl⟩
        obtain ⟨first, others, rfl, own, later⟩ := List.map_eq_cons_iff.mp same
        cases formed with
        | @cons pile _ piles _ begins all =>
            refine ⟨first.witness, piles.flatten ++ rest, ⟨pile, begins, ?_⟩, others, rest,
              ⟨later, piles, all, rfl⟩, ?_, rfl⟩
            · rw [List.flatten_cons, List.append_assoc]
            · rw [show ({ input with witness := first.witness } : TxInput Witness) =
                { cleared code input with witness := first.witness } from rfl, ← own]
              rfl

theorem readFlagged_iff (decodes : Recognizes code.consensusDecode stack) {flags : UInt8}
    {inputs done : List (TxInput Witness)}
    (plain : ∀ input ∈ inputs, input.witness = code.default) :
    readFlagged code flags inputs bytes = .ok (done, rest) ↔
      inputs = done.map (cleared code) ∧ ∃ piles,
        WitnessForm code stack flags piles (done.map TxInput.witness) ∧
          bytes = piles.flatten ++ rest := by
  have same := cleared_eq plain
  unfold readFlagged WitnessForm
  split
  · rw [readWitnesses_iff decodes, same, eq_comm]
  · constructor
    · intro read
      cases read
      refine ⟨same.symm, [], ⟨rfl, ?_⟩, rfl⟩
      rintro _ listed
      obtain ⟨input, member, rfl⟩ := List.mem_map.mp listed
      exact plain input member
    · rintro ⟨rfl, piles, ⟨rfl, defaults⟩, rfl⟩
      rw [cleared_eq fun input member => defaults _ (List.mem_map_of_mem member)]

theorem readTx_recognizes (decodes : Recognizes code.consensusDecode stack) :
    Recognizes (readTx code) (TxForm code AsRead stack) := by
  intro bytes tx rest
  simp only [readTx, bind_ok, Prod.exists, readUInt_iff, readInCount_iff, readFrom_iff,
    readTxInputs_iff, readTxOutputs_iff, Except.ok.injEq, Prod.mk.injEq]
  constructor
  · rintro ⟨version, _, ⟨rfl, begins⟩, flags, inCount, _, ⟨spelled, marker, form, rfl⟩, inputs, _,
      ⟨held, rfl, length, fits⟩, outCount, _, ⟨rfl, counted⟩, outputs, _,
      ⟨outHeld, rfl, outLength, outFits⟩, done, _, flagged, locktime, _, ⟨rfl, ends⟩, rfl, rfl⟩
    obtain ⟨rfl, piles, witnesses, rfl⟩ :=
      (readFlagged_iff decodes fun input member => (fits input member).2).mp flagged
    refine ⟨leBytes 4 version ++ marker ++ RawTx.body
      { version, inCount, inputs := done, outCount, outputs, locktime } ++ piles.flatten ++
        leBytes 4 locktime, ⟨?_, marker, flags, piles, form, witnesses, rfl⟩, ?_⟩
    · refine {
        version := begins
        inCount := spelled
        inputs := ⟨by rw [← length, List.length_map], ?_⟩
        inputsHeld := held
        outCount := counted
        outputs := ⟨outLength, outFits⟩
        outputsHeld := outHeld
        locktime := ends }
      intro input member
      obtain ⟨own, _⟩ := fits (cleared code input) (List.mem_map_of_mem member)
      exact ⟨own.txid, own.vout, own.scriptLen, own.scriptSig, own.seqNo⟩
    · rw [List.map_map, show TxInput.serialized ∘ cleared code = TxInput.serialized from rfl]
      simp only [RawTx.body, List.append_assoc]
  · rintro ⟨_, ⟨fits, marker, flags, piles, form, witnesses, rfl⟩, rfl⟩
    have cleared : ∀ input ∈ tx.inputs.map (cleared code),
        InputFits AsRead input ∧ input.witness = code.default := by
      intro input listed
      obtain ⟨original, member, rfl⟩ := List.mem_map.mp listed
      have own := fits.inputs.2 original member
      exact ⟨⟨own.txid, own.vout, own.scriptLen, own.scriptSig, own.seqNo⟩, rfl⟩
    refine ⟨tx.version, _, ⟨?_, fits.version⟩, flags, tx.inCount, _,
      ⟨fits.inCount, marker, form, rfl⟩, _, _,
      ⟨fits.inputsHeld, rfl, by rw [List.length_map, fits.inputs.1], cleared⟩, tx.outCount, _,
      ⟨rfl, fits.outCount⟩, tx.outputs, _,
      ⟨fits.outputsHeld, rfl, fits.outputs.1, fits.outputs.2⟩, tx.inputs, _,
      (readFlagged_iff decodes fun input member => (cleared input member).2).mpr
        ⟨rfl, piles, witnesses, rfl⟩,
      tx.locktime, rest, ⟨rfl, fits.locktime⟩, rfl, rfl⟩
    rw [List.map_map, show TxInput.serialized ∘ BlkFile.cleared code = TxInput.serialized from rfl]
    simp only [RawTx.body, List.append_assoc]

theorem readBlockHeader_iff {header : BlockHeader} :
    readBlockHeader bytes = .ok (header, rest) ↔
      bytes = header.toBytes ++ rest ∧ HeaderFits header := by
  simp only [readBlockHeader, read256Hash, bind_ok, Prod.exists, readExact_iff, readUInt_iff,
    Except.ok.injEq, Prod.mk.injEq]
  constructor
  · rintro ⟨version, _, ⟨rfl, begins⟩, prevHash, _, ⟨rfl, prev⟩, merkleRoot, _, ⟨rfl, root⟩,
      timestamp, _, ⟨rfl, time⟩, bits, _, ⟨rfl, target⟩, nonce, _, ⟨rfl, ends⟩, rfl, rfl⟩
    refine ⟨?_, ⟨begins, prev, root, time, target, ends⟩⟩
    simp only [BlockHeader.toBytes, List.append_assoc]
  · rintro ⟨rfl, fits⟩
    refine ⟨header.version, _, ⟨?_, fits.version⟩, header.prevHash, _, ⟨rfl, fits.prevHash⟩,
      header.merkleRoot, _, ⟨rfl, fits.merkleRoot⟩, header.timestamp, _, ⟨rfl, fits.timestamp⟩,
      header.bits, _, ⟨rfl, fits.bits⟩, header.nonce, rest, ⟨rfl, fits.nonce⟩, rfl, rfl⟩
    simp only [BlockHeader.toBytes, List.append_assoc]

theorem readMerkleBranch_recognizes : Recognizes readMerkleBranch BranchForm := by
  intro bytes branch rest
  have hashes : ∀ bytes hash rest, read256Hash bytes = .ok (hash, rest) ↔
      bytes = id hash ++ rest ∧ hash.length = 32 := fun _ _ _ => readExact_iff
  simp only [readMerkleBranch, bind_ok, Prod.exists, readFrom_iff, readMany_iff hashes,
    readUInt_iff, List.map_id, Except.ok.injEq, Prod.mk.injEq]
  constructor
  · rintro ⟨length, _, ⟨rfl, spelled⟩, hashes, _, ⟨rfl, count, sizes⟩, sideMask, _, ⟨rfl, fits⟩,
      rfl, rfl⟩
    refine ⟨_, ⟨sizes, fits, length, spelled, count.symm, rfl⟩, ?_⟩
    simp only [List.append_assoc]
  · rintro ⟨_, ⟨sizes, fits, length, spelled, count, rfl⟩, rfl⟩
    refine ⟨length, _, ⟨?_, spelled⟩, branch.hashes, _, ⟨rfl, count.symm, sizes⟩, branch.sideMask,
      rest, ⟨rfl, fits⟩, rfl, rfl⟩
    simp only [List.append_assoc]

theorem readAuxPowExtension_recognizes (decodes : Recognizes code.consensusDecode stack) :
    Recognizes (readAuxPowExtension code) (ExtensionForm code AsRead stack) := by
  intro bytes extension rest
  simp only [readAuxPowExtension, read256Hash, bind_ok, Prod.exists,
    readTx_recognizes decodes _ _ _, readExact_iff, readMerkleBranch_recognizes _ _ _,
    readBlockHeader_iff, Except.ok.injEq, Prod.mk.injEq]
  constructor
  · rintro ⟨coinbaseTx, _, ⟨coinbase, tx, rfl⟩, blockHash, _, ⟨rfl, size⟩, first, _,
      ⟨left, begins, rfl⟩, second, _, ⟨right, ends, rfl⟩, parentBlock, _, ⟨rfl, fits⟩, rfl, rfl⟩
    refine ⟨_, ⟨size, fits, coinbase, left, right, tx, begins, ends, rfl⟩, ?_⟩
    simp only [List.append_assoc]
  · rintro ⟨_, ⟨size, fits, coinbase, left, right, tx, begins, ends, rfl⟩, rfl⟩
    refine ⟨extension.coinbaseTx, _, ⟨coinbase, tx, ?_⟩, extension.blockHash, _, ⟨rfl, size⟩,
      extension.coinbaseBranch, _, ⟨left, begins, rfl⟩, extension.blockchainBranch, _,
      ⟨right, ends, rfl⟩, extension.parentBlock, rest, ⟨rfl, fits⟩, rfl, rfl⟩
    simp only [List.append_assoc]

theorem readExtensionIf_recognizes (decodes : Recognizes code.consensusDecode stack)
    (merged : Bool) :
    Recognizes (readExtensionIf code merged) (MergedForm code AsRead stack merged) := by
  intro bytes extension rest
  cases merged with
  | false =>
      simp only [readExtensionIf, Bool.false_eq_true, if_false, Except.ok.injEq, Prod.mk.injEq]
      constructor
      · rintro ⟨rfl, rfl⟩
        exact ⟨[], ⟨rfl, rfl⟩, rfl⟩
      · rintro ⟨front, form, rfl⟩
        cases extension with
        | none =>
            obtain ⟨_, rfl⟩ := form
            exact ⟨rfl, rfl⟩
        | some extension => cases form.1
  | true =>
      simp only [readExtensionIf, if_true, bind_ok, Prod.exists,
        readAuxPowExtension_recognizes decodes _ _ _, Except.ok.injEq, Prod.mk.injEq]
      constructor
      · rintro ⟨found, _, ⟨front, form, rfl⟩, rfl, rfl⟩
        exact ⟨front, ⟨rfl, form⟩, rfl⟩
      · rintro ⟨front, form, rfl⟩
        cases extension with
        | none => cases form.1
        | some extension => exact ⟨extension, rest, ⟨front, form.2, rfl⟩, rfl, rfl⟩

theorem readRawBlock_recognizes (decodes : Recognizes code.consensusDecode stack) (size : Nat) :
    Recognizes (readRawBlock code size) fun front block =>
      block.size = size ∧ BlockForm code AsRead stack front block := by
  intro bytes block rest
  simp only [readRawBlock, readTxs, bind_ok, Prod.exists, readBlockHeader_iff,
    readExtensionIf_recognizes decodes _ _ _ _, readFrom_iff,
    readMany_recognizes (readTx_recognizes decodes) _ _ _ _, Except.ok.injEq, Prod.mk.injEq]
  constructor
  · rintro ⟨header, _, ⟨rfl, fits⟩, extension, _, ⟨front, merged, rfl⟩, txCount, _,
      ⟨rfl, spelled⟩, txs, _, ⟨_, ⟨count, parts, all, rfl⟩, rfl⟩, rfl, rfl⟩
    refine ⟨_, ⟨rfl, fits, spelled, front, parts, merged, all, count, rfl⟩, ?_⟩
    simp only [List.append_assoc]
  · rintro ⟨_, ⟨rfl, fits, spelled, front, parts, merged, all, count, rfl⟩, rfl⟩
    refine ⟨block.header, _, ⟨?_, fits⟩, block.auxPowExtension, _, ⟨front, merged, rfl⟩,
      block.txCount, _, ⟨rfl, spelled⟩, block.txs, rest, ⟨_, ⟨count, parts, all, rfl⟩, rfl⟩, rfl,
      rfl⟩
    simp only [List.append_assoc]

theorem HeaderFits.length {header : BlockHeader} (fits : HeaderFits header) :
    header.toBytes.length = 80 := by
  simp only [BlockHeader.toBytes, List.length_append, length_leBytes, fits.prevHash,
    fits.merkleRoot]

end Readers

end WjkIndexer.Blk.BlkFile
