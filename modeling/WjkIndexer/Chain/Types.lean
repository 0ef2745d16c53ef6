import WjkIndexer.Library.Table

/-!
Blocks, transactions and outpoints as the block parser hands them to the
indexer, and the chain the process is configured for.
-/

namespace WjkIndexer

abbrev Bytes := List UInt8

abbrev Hash256 := BitVec 256

abbrev Txid := Hash256

abbrev BlockHash := Hash256

/-- The SHA-256 of an output script, under which balances are filed. -/
abbrev FullHash := Hash256

structure OutPoint where
  txid : Txid
  vout : Nat
  deriving DecidableEq, Repr

structure Location where
  outpoint : OutPoint
  offset : Nat
  deriving DecidableEq, Repr

structure TxInput where
  outpoint : OutPoint
  scriptSig : Bytes
  witness : List Bytes
  deriving DecidableEq, Repr

structure EvaluatedTxOut where
  value : Nat
  scriptPubkey : Bytes
  address : Option String
  deriving DecidableEq, Repr

structure Tx where
  hash : Txid
  inputs : List TxInput
  outputs : List EvaluatedTxOut
  deriving DecidableEq, Repr

def Tx.isCoinbase (tx : Tx) : Bool :=
  match tx.inputs with
  | [input] => input.outpoint.txid == 0 && input.outpoint.vout == 0xFFFFFFFF
  | _ => false

def Tx.created (tx : Tx) : List (OutPoint × EvaluatedTxOut) :=
  tx.outputs.zipIdx.map fun (output, vout) => (⟨tx.hash, vout⟩, output)

structure BlockHeader where
  hash : BlockHash
  prevHash : BlockHash
  timestamp : Nat
  deriving DecidableEq, Repr

structure Block where
  header : BlockHeader
  txs : List Tx
  deriving DecidableEq, Repr

inductive Blockchain where
  | dogecoin
  | bellscoin
  | pepecoin
  | litecoin
  | wojakcoin
  deriving DecidableEq, Repr

inductive Network where
  | bellscoin
  | testnet
  | signet
  | regtest
  deriving DecidableEq, Repr

/-- Multiple input inscription scan activation. -/
def jubileeHeight : Network → Blockchain → Nat
  | .bellscoin, .bellscoin => 133000
  | _, .dogecoin => 2 ^ 64 - 1
  | _, .wojakcoin => 0
  | _, _ => 0

/-- First token block height. -/
def startHeight : Network → Blockchain → Nat
  | .bellscoin, .bellscoin => 26371
  | .bellscoin, .dogecoin => 4609001
  | .testnet, .dogecoin => 4260001
  | .bellscoin, .litecoin => 2424429
  | .testnet, .litecoin => 2669127
  | _, .wojakcoin => 1
  | _, _ => 0

end WjkIndexer
