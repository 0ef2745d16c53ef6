import WjkIndexer.Blk.Blocks

/-!
Blocks as a node writes them, with scripts that are as long as announced, and what reading them
gives: the block and its transactions, each with its hash.
-/

namespace WjkIndexer.Blk.BlkFile

open ByteString Machine Recognition

variable {Witness : Type} {code : WitnessCode Witness}

section Written

variable {stack : Bytes → Witness → Prop}

structure TxShort (tx : RawTx Witness) : Prop where
  inputs : ∀ input ∈ tx.inputs, input.scriptLen.value < 2 ^ 32
  outputs : ∀ output ∈ tx.outputs, output.scriptLen.value < 2 ^ 32

structure RawBlock.Short (raw : RawBlock Witness) : Prop where
  txs : ∀ tx ∈ raw.txs, TxShort tx
  merged : ∀ extension ∈ raw.auxPowExtension, TxShort extension.coinbaseTx

theorem asWritten_iff {announced length : Nat} :
    AsWritten announced length ↔ AsRead announced length ∧ announced < 2 ^ 32 := by
  refine and_congr_left fun short => ?_
  rw [AsRead, Nat.mod_eq_of_lt short]

theorem inputWritten_iff {input : TxInput Witness} :
    InputFits AsWritten input ↔ InputFits AsRead input ∧ input.scriptLen.value < 2 ^ 32 := by
  constructor
  · intro fits
    obtain ⟨read, short⟩ := asWritten_iff.mp fits.scriptSig
    exact ⟨{ fits with scriptSig := read }, short⟩
  · rintro ⟨fits, short⟩
    exact { fits with scriptSig := asWritten_iff.mpr ⟨fits.scriptSig, short⟩ }

theorem outputWritten_iff {output : TxOutput} :
    OutputFits AsWritten output ↔ OutputFits AsRead output ∧ output.scriptLen.value < 2 ^ 32 := by
  constructor
  · intro fits
    obtain ⟨read, short⟩ := asWritten_iff.mp fits.scriptPubkey
    exact ⟨{ fits with scriptPubkey := read }, short⟩
  · rintro ⟨fits, short⟩
    exact { fits with scriptPubkey := asWritten_iff.mpr ⟨fits.scriptPubkey, short⟩ }

theorem txWritten_iff {front : Bytes} {tx : RawTx Witness} :
    TxForm code AsWritten stack front tx ↔ TxForm code AsRead stack front tx ∧ TxShort tx := by
  constructor
  · rintro ⟨fits, form⟩
    refine ⟨⟨{ fits with
      inputs := ⟨fits.inputs.1, fun input member =>
        (inputWritten_iff.mp (fits.inputs.2 input member)).1⟩
      outputs := ⟨fits.outputs.1, fun output member =>
        (outputWritten_iff.mp (fits.outputs.2 output member)).1⟩ }, form⟩, ?_, ?_⟩
    · exact fun input member => (inputWritten_iff.mp (fits.inputs.2 input member)).2
    · exact fun output member => (outputWritten_iff.mp (fits.outputs.2 output member)).2
  · rintro ⟨⟨fits, form⟩, short⟩
    exact ⟨{ fits with
      inputs := ⟨fits.inputs.1, fun input member =>
        inputWritten_iff.mpr ⟨fits.inputs.2 input member, short.inputs input member⟩⟩
      outputs := ⟨fits.outputs.1, fun output member =>
        outputWritten_iff.mpr ⟨fits.outputs.2 output member, short.outputs output member⟩⟩ }, form⟩

theorem txsWritten_iff {fronts : List Bytes} {txs : List (RawTx Witness)} :
    List.Forall₂ (TxForm code AsWritten stack) fronts txs ↔
      List.Forall₂ (TxForm code AsRead stack) fronts txs ∧ ∀ tx ∈ txs, TxShort tx := by
  induction txs generalizing fronts with
  | nil => simp
  | cons tx rest ih =>
      cases fronts with
      | nil => simp
      | cons front others =>
          rw [List.forall₂_cons, List.forall₂_cons, List.forall_mem_cons, txWritten_iff, ih]
          exact and_and_and_comm

theorem mergedWritten_iff {merged : Bool} {front : Bytes}
    {extension : Option (AuxPowExtension Witness)} :
    MergedForm code AsWritten stack merged front extension ↔
      MergedForm code AsRead stack merged front extension ∧
        ∀ proof ∈ extension, TxShort proof.coinbaseTx := by
  cases extension with
  | none => simp [MergedForm]
  | some proof =>
      simp only [MergedForm, ExtensionForm, txWritten_iff, Option.mem_def, Option.some.injEq,
        forall_eq']
      constructor
      · rintro ⟨flagged, size, fits, coinbase, left, right, ⟨tx, short⟩, later⟩
        exact ⟨⟨flagged, size, fits, coinbase, left, right, tx, later⟩, short⟩
      · rintro ⟨⟨flagged, size, fits, coinbase, left, right, tx, later⟩, short⟩
        exact ⟨flagged, size, fits, coinbase, left, right, ⟨tx, short⟩, later⟩

theorem blockWritten_iff {front : Bytes} {raw : RawBlock Witness} :
    BlockForm code AsWritten stack front raw ↔
      BlockForm code AsRead stack front raw ∧ raw.Short := by
  simp only [BlockForm, mergedWritten_iff, txsWritten_iff]
  constructor
  · rintro ⟨fits, spelled, extension, txs, ⟨merged, shortProof⟩, ⟨all, shortTxs⟩, later⟩
    exact ⟨⟨fits, spelled, extension, txs, merged, all, later⟩, shortTxs, shortProof⟩
  · rintro ⟨⟨fits, spelled, extension, txs, merged, all, later⟩, shortTxs, shortProof⟩
    exact ⟨fits, spelled, extension, txs, ⟨merged, shortProof⟩, ⟨all, shortTxs⟩, later⟩

end Written

/-- The form of a block behind its size. -/
def SizedForm (code : WitnessCode Witness) (stack : Bytes → Witness → Prop) (front : Bytes)
    (raw : RawBlock Witness) : Prop :=
  raw.size < 256 ^ 4 ∧ ∃ body, BlockForm code AsWritten stack body raw ∧
    front = leBytes 4 raw.size ++ body

section Blocks

variable {stack : Bytes → Witness → Prop} {Script : Type} (evalFromBytes : Bytes → Script)
  (sha256d : Bytes → Hash256)

/-- A block whose transactions are named by the digests of their bytes without the witnesses. -/
def RawBlock.hashed (raw : RawBlock Witness) : Block Witness Script where
  size := raw.size
  header := { hash := sha256d raw.header.toBytes, value := raw.header }
  auxPowExtension := raw.auxPowExtension
  txCount := raw.txCount
  txs := raw.txs.map fun tx => {
    hash := sha256d (leBytes 4 tx.version ++ tx.body ++ leBytes 4 tx.locktime)
    value := tx.evaluate evalFromBytes }

def Block.Short (block : Block Witness Script) : Prop :=
  (∀ tx ∈ block.txs, (∀ input ∈ tx.value.inputs, input.scriptLen.value < 2 ^ 32) ∧
    ∀ output ∈ tx.value.outputs, output.out.scriptLen.value < 2 ^ 32) ∧
  ∀ extension ∈ block.auxPowExtension, TxShort extension.coinbaseTx

instance (tx : RawTx Witness) : Decidable (TxShort tx) :=
  decidable_of_iff ((∀ input ∈ tx.inputs, input.scriptLen.value < 2 ^ 32) ∧
    ∀ output ∈ tx.outputs, output.scriptLen.value < 2 ^ 32)
    ⟨fun short => ⟨short.1, short.2⟩, fun short => ⟨short.inputs, short.outputs⟩⟩

instance (block : Block Witness Script) : Decidable block.Short :=
  inferInstanceAs (Decidable ((∀ tx ∈ block.txs, _ ∧ _) ∧ ∀ extension ∈ _, TxShort _))

theorem hashedTx_short {tx : RawTx Witness} (fits : TxFits code AsRead tx) (short : TxShort tx) :
    hashedTx evalFromBytes sha256d tx = .ok {
      hash := sha256d (leBytes 4 tx.version ++ tx.body ++ leBytes 4 tx.locktime)
      value := tx.evaluate evalFromBytes } := by
  have small : 4 + tx.inCount.value + tx.outCount.value + 4 ≤ isizeMax := by
    have inputs := fits.inputsHeld
    have outputs := fits.outputsHeld
    have least : tx.inCount.value * 96 ≤ tx.inCount.value * (36 + 32 + 24 + 4 + code.size) :=
      Nat.mul_le_mul_left _ (by omega)
    simp only [isizeMax] at inputs outputs ⊢
    omega
  have scripts : tx.ScriptsFit := by
    refine ⟨?_, ?_⟩
    · intro input member
      have length := short.inputs input member
      rw [TxInput.Fits, isizeMax]
      omega
    · intro output member
      have length := short.outputs output member
      rw [TxOutput.Fits, isizeMax]
      omega
  have written := (evaluate_toBytes evalFromBytes small).mpr ⟨scripts, rfl⟩
  simp only [hashedTx, EvaluatedTx.doubleSha256, written, bind, Except.bind]

theorem new_short {raw : RawBlock Witness} (fits : ∀ tx ∈ raw.txs, TxFits code AsRead tx)
    (short : raw.Short) :
    Block.new evalFromBytes sha256d raw = .ok (raw.hashed evalFromBytes sha256d) := by
  have all : ∀ txs : List (RawTx Witness), (∀ tx ∈ txs, TxFits code AsRead tx ∧ TxShort tx) →
      txs.mapM (hashedTx evalFromBytes sha256d) = .ok (txs.map fun tx => {
        hash := sha256d (leBytes 4 tx.version ++ tx.body ++ leBytes 4 tx.locktime)
        value := tx.evaluate evalFromBytes }) := by
    intro txs each
    induction txs with
    | nil => rfl
    | cons tx rest ih =>
        obtain ⟨⟨fits, short⟩, later⟩ := List.forall_mem_cons.mp each
        rw [List.mapM_cons, hashedTx_short evalFromBytes sha256d fits short, ih later]
        rfl
  rw [Block.new, all raw.txs fun tx member => ⟨fits tx member, short.txs tx member⟩]
  rfl

theorem new_values {raw : RawBlock Witness} {block : Block Witness Script}
    (built : Block.new evalFromBytes sha256d raw = .ok block) :
    block.txs.map Hashed.value = raw.txs.map (RawTx.evaluate evalFromBytes) ∧
      block.auxPowExtension = raw.auxPowExtension := by
  simp only [Block.new, bind_ok, Except.ok.injEq] at built
  obtain ⟨txs, hashed, rfl⟩ := built
  refine ⟨?_, rfl⟩
  generalize raw.txs = given at hashed
  induction given generalizing txs with
  | nil =>
      cases hashed
      rfl
  | cons tx rest ih =>
      simp only [List.mapM_cons, bind_ok, hashedTx] at hashed
      obtain ⟨_, ⟨_, _, first⟩, others, later, same⟩ := hashed
      cases first
      cases same
      exact congrArg _ (ih others later)

theorem Block.Short.raw {raw : RawBlock Witness} {block : Block Witness Script}
    (built : Block.new evalFromBytes sha256d raw = .ok block) (short : block.Short) :
    raw.Short := by
  obtain ⟨values, extension⟩ := new_values evalFromBytes sha256d built
  refine ⟨?_, extension ▸ short.2⟩
  intro tx member
  have listed : tx.evaluate evalFromBytes ∈ block.txs.map Hashed.value :=
    values ▸ List.mem_map_of_mem member
  obtain ⟨hashed, known, same⟩ := List.mem_map.mp listed
  obtain ⟨inputs, outputs⟩ := short.1 hashed known
  rw [same] at inputs outputs
  refine ⟨inputs, ?_⟩
  intro output own
  exact outputs { script := evalFromBytes output.scriptPubkey, out := output }
    (List.mem_map_of_mem own)

theorem RawBlock.Short.hashed {raw : RawBlock Witness} (short : raw.Short) :
    (raw.hashed evalFromBytes sha256d : Block Witness Script).Short := by
  refine ⟨?_, short.merged⟩
  intro hashed listed
  obtain ⟨tx, member, rfl⟩ := List.mem_map.mp listed
  refine ⟨(short.txs tx member).inputs, ?_⟩
  intro output evaluated
  obtain ⟨own, known, rfl⟩ := List.mem_map.mp evaluated
  exact (short.txs tx member).outputs own known

def readSizedRaw (code : WitnessCode Witness) : Reader (RawBlock Witness) := fun bytes => do
  let (size, bytes) ← readUInt 4 bytes
  readRawBlock code size bytes

theorem readSizedBlock_eq (bytes : Bytes) :
    readSizedBlock code evalFromBytes sha256d bytes = (do
      let (raw, rest) ← readSizedRaw code bytes
      let block ← Block.new evalFromBytes sha256d raw
      .ok (block, rest)) := by
  simp only [readSizedBlock, readSizedRaw, readBlock, bind, Except.bind]
  cases readUInt 4 bytes with
  | error fault => rfl
  | ok read => rfl

theorem readSizedRaw_recognizes (decodes : Recognizes code.consensusDecode stack) :
    Recognizes (readSizedRaw code) fun front raw => raw.size < 256 ^ 4 ∧ ∃ body,
      BlockForm code AsRead stack body raw ∧ front = leBytes 4 raw.size ++ body := by
  intro bytes raw rest
  simp only [readSizedRaw, bind_ok, Prod.exists, readUInt_iff,
    readRawBlock_recognizes decodes _ _ _ _]
  constructor
  · rintro ⟨_, _, ⟨rfl, small⟩, body, ⟨rfl, form⟩, rfl⟩
    exact ⟨_, ⟨small, body, form, rfl⟩, (List.append_assoc _ _ _).symm⟩
  · rintro ⟨_, ⟨small, body, form, rfl⟩, rfl⟩
    exact ⟨raw.size, body ++ rest, ⟨List.append_assoc _ _ _, small⟩, body, ⟨rfl, form⟩, rfl⟩

theorem BlockForm.fits {front : Bytes} {raw : RawBlock Witness}
    (form : BlockForm code AsRead stack front raw) : ∀ tx ∈ raw.txs, TxFits code AsRead tx := by
  obtain ⟨_, _, _, _, _, all, -⟩ := form
  generalize raw.txs = txs at all
  induction all with
  | nil => simp
  | cons formed _ ih => exact List.forall_mem_cons.mpr ⟨formed.1, ih⟩

theorem readSizedBlock_iff (decodes : Recognizes code.consensusDecode stack) {bytes rest : Bytes}
    {block : Block Witness Script} :
    readSizedBlock code evalFromBytes sha256d bytes = .ok (block, rest) ∧ block.Short ↔
      ∃ front raw, SizedForm code stack front raw ∧
        block = raw.hashed evalFromBytes sha256d ∧ bytes = front ++ rest := by
  simp only [readSizedBlock_eq, bind_ok, Prod.exists, readSizedRaw_recognizes decodes _ _ _,
    SizedForm, blockWritten_iff, Except.ok.injEq, Prod.mk.injEq]
  constructor
  · rintro ⟨⟨raw, _, ⟨front, ⟨small, body, form, own⟩, rfl⟩, _, built, rfl, rfl⟩, short⟩
    have shortRaw := short.raw evalFromBytes sha256d built
    rw [new_short evalFromBytes sha256d form.fits shortRaw, Except.ok.injEq] at built
    exact ⟨front, raw, ⟨small, body, ⟨form, shortRaw⟩, own⟩, built.symm, rfl⟩
  · rintro ⟨front, raw, ⟨small, body, ⟨form, short⟩, own⟩, rfl, rfl⟩
    exact ⟨⟨raw, rest, ⟨front, ⟨small, body, form, own⟩, rfl⟩, _,
      new_short evalFromBytes sha256d form.fits short, rfl, rfl⟩, short.hashed _ _⟩

/-- The forms of blocks are read back at the front of a file, and nothing else is read as a block
whose scripts are shorter than 4 GiB. Its transactions are named by the digests of their bytes
without the witnesses, and it is named by that of the 80 bytes behind its size. A block that is cut
off is refused. -/
theorem blocks_readBack (decodes : Recognizes code.consensusDecode stack) :
    (∀ bytes rest (block : Block Witness Script),
      readSizedBlock code evalFromBytes sha256d bytes = .ok (block, rest) ∧ block.Short ↔
        ∃ front raw, SizedForm code stack front raw ∧
          block = raw.hashed evalFromBytes sha256d ∧ bytes = front ++ rest) ∧
    (∀ kept lost raw, SizedForm code stack (kept ++ lost) raw → lost ≠ [] →
      ∃ fault, readSizedBlock code evalFromBytes sha256d kept = .error fault) ∧
    ∀ front raw, SizedForm code stack front raw →
      (raw.hashed evalFromBytes sha256d).header.hash = sha256d ((front.drop 4).take 80) := by
  refine ⟨fun bytes rest block => readSizedBlock_iff evalFromBytes sha256d decodes, ?_, ?_⟩
  · rintro kept lost raw ⟨small, body, form, own⟩ missing
    obtain ⟨fault, refused⟩ := (readSizedRaw_recognizes decodes).truncated
      ⟨small, body, (blockWritten_iff.mp form).1, own⟩ missing
    refine ⟨fault, ?_⟩
    rw [readSizedBlock_eq, refused]
    rfl
  · rintro _ raw ⟨_, _, ⟨fits, _, extension, txs, _, _, _, rfl⟩, rfl⟩
    rw [List.drop_left' (length_leBytes 4 raw.size), List.append_assoc, List.append_assoc,
      List.take_left' fits.length]
    rfl

end Blocks

namespace Sample

def stack (front : Bytes) (items : List Bytes) : Prop :=
  ∃ count, Spelled count ∧ items.length = count.value ∧ ∃ parts,
    List.Forall₂ (fun part item => ∃ length, Spelled length ∧ item.length = length.value ∧
      part = length.buf ++ item) parts items ∧ front = count.buf ++ parts.flatten

def item (bytes : Bytes) : Except ReadError (Bytes × Bytes) := do
  let (length, bytes) ← VarUint.readFrom bytes
  readExact length.value bytes

theorem item_recognizes : Recognizes item fun part item => ∃ length, Spelled length ∧
    item.length = length.value ∧ part = length.buf ++ item := by
  intro bytes item rest
  simp only [Sample.item, bind_ok, Prod.exists, readFrom_iff, readExact_iff]
  constructor
  · rintro ⟨length, _, ⟨rfl, spelled⟩, rfl, size⟩
    exact ⟨_, ⟨length, spelled, size, rfl⟩, (List.append_assoc _ _ _).symm⟩
  · rintro ⟨_, ⟨length, spelled, size, rfl⟩, rfl⟩
    exact ⟨length, item ++ rest, ⟨List.append_assoc _ _ _, spelled⟩, rfl, size⟩

theorem witness_recognizes : Recognizes Blk.Sample.witness.consensusDecode stack := by
  intro bytes witness rest
  rw [show Blk.Sample.witness.consensusDecode bytes = VarUint.readFrom bytes >>=
    fun read => readMany item read.1.value read.2 from rfl]
  simp only [bind_ok, Prod.exists, readFrom_iff, readMany_recognizes item_recognizes _ _ _ _]
  constructor
  · rintro ⟨count, _, ⟨rfl, spelled⟩, _, ⟨size, parts, all, rfl⟩, rfl⟩
    exact ⟨_, ⟨count, spelled, size, parts, all, rfl⟩, (List.append_assoc _ _ _).symm⟩
  · rintro ⟨_, ⟨count, spelled, size, parts, all, rfl⟩, rfl⟩
    exact ⟨count, parts.flatten ++ rest, ⟨List.append_assoc _ _ _, spelled⟩, _,
      ⟨size, parts, all, rfl⟩, rfl⟩

def headerBytes (version : Bytes) : Bytes :=
  version ++ [0, 0] ++ List.replicate 32 5 ++ List.replicate 32 6 ++ [1, 0, 0, 0] ++
    [2, 0, 0, 0] ++ [3, 0, 0, 0]

def mergedBlock : Bytes :=
  [9, 1, 0, 0] ++ headerBytes [0, 1] ++ (Blk.Sample.txBytes [] [3] [] ++ List.replicate 32 8 ++
    ([1] ++ List.replicate 32 4 ++ [0, 0, 0, 0]) ++ [0, 0, 0, 0, 0] ++ headerBytes [1, 0]) ++
    [1] ++ Blk.Sample.segwitTx

end Sample

theorem merged_readBack :
    ∃ block : Block (List Bytes) Bytes,
      readSizedBlock Blk.Sample.witness id Blk.Sample.sha256d Sample.mergedBlock =
        .ok (block, []) ∧
      block.auxPowExtension.isSome = true ∧ block.txs.length = 1 ∧
      (∃ raw, SizedForm Blk.Sample.witness Sample.stack Sample.mergedBlock raw ∧
        block = raw.hashed id Blk.Sample.sha256d) ∧
      (∃ fault, readSizedBlock Blk.Sample.witness (id : Bytes → Bytes) Blk.Sample.sha256d
        Sample.mergedBlock.dropLast = .error fault) ∧
      block.header.hash = Blk.Sample.sha256d ((Sample.mergedBlock.drop 4).take 80) := by
  have ran : (readSizedBlock Blk.Sample.witness (id : Bytes → Bytes) Blk.Sample.sha256d
      Sample.mergedBlock).toOption.any (fun result =>
        decide (result.2 = [] ∧ result.1.auxPowExtension.isSome = true ∧
          result.1.txs.length = 1 ∧ result.1.Short)) = true := by
    decide +kernel
  obtain ⟨⟨block, rest⟩, read, holds⟩ := (Option.any_eq_true _ _).mp ran
  obtain ⟨rfl, merged, count, short⟩ := of_decide_eq_true holds
  have result := toOption_some.mp read
  obtain ⟨whole, cut, named⟩ := blocks_readBack (id : Bytes → Bytes) Blk.Sample.sha256d
    Sample.witness_recognizes
  obtain ⟨front, raw, form, own, same⟩ := (whole _ _ _).mp ⟨result, short⟩
  rw [List.append_nil] at same
  subst same
  refine ⟨block, result, merged, count, ⟨raw, form, own⟩, ?_, own ▸ named _ _ form⟩
  refine cut _ [0] raw ?_ (by simp)
  rwa [show Sample.mergedBlock.dropLast ++ [0] = Sample.mergedBlock by decide +kernel]

end WjkIndexer.Blk.BlkFile
