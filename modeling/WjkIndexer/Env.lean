import WjkIndexer.Database.Tables
import WjkIndexer.Library.Sha256

/-!
What the indexer takes from outside its own sources: the configured chain and the
functions of the libraries it links (hashing, Unicode case folding, JSON, decimal
scale, script classification). Every result holds for every such environment.
-/

namespace WjkIndexer

inductive Instruction where
  | pushBytes (data : Bytes)
  | op (opcode : Nat)
  deriving DecidableEq, Repr

structure Env where
  blockchain : Blockchain
  network : Network
  sha256 : Bytes → Hash256
  -- lossy UTF-8 decoding, Unicode lower case, and the bytes of the result
  lowercase : Bytes → Bytes
  parseJson : Bytes → JsonResult
  -- `Fixed128::from_str`, with the text of its error
  fixed128FromStr : Bytes → Except String Nat
  -- the number of decimals of an amount
  scale : Nat → Nat
  isOpReturn : Bytes → Bool
  isProvablyUnspendable : Bytes → Bool
  tapscript : List Bytes → Option Bytes
  -- the instructions of a script; `none` is a malformed one
  instructions : Bytes → List (Option Instruction)
  -- the order in which a hash set of offsets is iterated. Nothing fixes it, and another pass over
  -- the same block can have another one: where two passes are compared, each has its own
  iterate : OutPoint → Finset Nat → List Nat
  iterate_nodup : ∀ outpoint offsets, (iterate outpoint offsets).Nodup
  mem_iterate : ∀ outpoint offsets offset, offset ∈ iterate outpoint offsets ↔ offset ∈ offsets
  -- the JSON of a history entry, with addresses resolved
  historyJson : AddressTokenIdDB × HistoryValue → (FullHash → String) → Bytes

namespace Env

variable (env : Env)

def jubileeHeight : Nat := WjkIndexer.jubileeHeight env.network env.blockchain

def startHeight : Nat := WjkIndexer.startHeight env.network env.blockchain

/-- `OP_RETURN_HASH`: the digest of the bytes of `BURNED`, owner of what is burned. -/
def opReturnHash : FullHash := env.sha256 [66, 85, 82, 78, 69, 68]

def isOpReturnHash (hash : FullHash) : Bool := hash == env.opReturnHash

def computeScriptHash (script : Bytes) : FullHash := env.sha256 script

/-- The key of a tick, `From<OriginalTokenTick> for LowerCaseTokenTick`. -/
def lower (tick : OriginalTokenTick) : LowerCaseTokenTick :=
  env.lowercase (trimTickBytes tick.bytes)

def supports : Protocol → Bool
  | .bel20 => env.blockchain == .bellscoin
  | .drc20 => env.blockchain == .dogecoin
  | .prc20 => env.blockchain == .pepecoin
  | .ltc20 => env.blockchain == .litecoin
  | .wjk20 => env.blockchain == .wojakcoin

end Env

/-! An environment to run examples in: it agrees with the linked libraries on digests, on
scripts, on ASCII text, on whole decimal numbers, and on the records it is given. -/

namespace Env

def asciiLower (byte : UInt8) : UInt8 := if 0x41 ≤ byte ∧ byte ≤ 0x5a then byte + 0x20 else byte

def wholeAmount (text : Bytes) : Except String Nat :=
  if text = [] then .error "Invalid decimal: empty"
  else if text.all fun byte => 0x30 ≤ byte && byte ≤ 0x39 then
    .ok (text.foldl (fun value byte => 10 * value + (byte.toNat - 0x30)) 0 * 10 ^ 18)
  else .error "invalid digit found in string"

def decimalsOf (amt : Nat) : Nat :=
  18 - ((List.range 19).filter fun zeros => amt % 10 ^ zeros = 0).getLastD 0

/-- A push of `size` bytes at the head of a script; too few bytes are an error. -/
def splitPush (size : Nat) (script : Bytes) : Option (Bytes × Bytes) :=
  if script.length < size then none else some (script.take size, script.drop size)

def scriptInstructions : Nat → Bytes → List (Option Instruction)
  | 0, _ => []
  | _ + 1, [] => []
  | fuel + 1, opcode :: rest =>
      let size := opcode.toNat
      let pushed : Option (Bytes × Bytes) :=
        if size ≤ 75 then splitPush size rest
        else if size = 76 then
          (splitPush 1 rest).bind fun (len, data) =>
            splitPush (len.foldr (fun byte number => byte.toNat + 256 * number) 0) data
        else if size = 77 then
          (splitPush 2 rest).bind fun (len, data) =>
            splitPush (len.foldr (fun byte number => byte.toNat + 256 * number) 0) data
        else
          (splitPush 4 rest).bind fun (len, data) =>
            splitPush (len.foldr (fun byte number => byte.toNat + 256 * number) 0) data
      if 78 < size then some (.op size) :: scriptInstructions fuel rest
      else
        match pushed with
        | none => [none]
        | some (data, left) => some (.pushBytes data) :: scriptInstructions fuel left

def witnessTapscript (witness : List Bytes) : Option Bytes :=
  let annexed := decide (2 ≤ witness.length) &&
    (witness.getLast?.bind List.head?) == some 0x50
  let stack := if annexed then witness.dropLast else witness
  if stack.length < 2 then none else stack.dropLast.getLast?

def ascending (offsets : Finset Nat) : List Nat :=
  Quot.lift (List.insertionSort (· ≤ ·))
    (fun _ _ same => List.Perm.eq_of_pairwise' (List.pairwise_insertionSort _ _)
      (List.pairwise_insertionSort _ _)
      ((List.perm_insertionSort _ _).trans (same.trans (List.perm_insertionSort _ _).symm)))
    offsets.val

theorem coe_ascending (offsets : Finset Nat) : (ascending offsets : Multiset Nat) = offsets.val := by
  obtain ⟨elements, unique⟩ := offsets
  induction elements using Quot.inductionOn
  exact Quot.sound (List.perm_insertionSort _ _)

def ofRecords (blockchain : Blockchain) (network : Network) (records : List (Bytes × RawBrc4)) :
    Env where
  blockchain
  network
  sha256 := Sha256.digest
  lowercase bytes := bytes.map asciiLower
  parseJson bytes := ((records.lookup bytes).map .ok).getD (.error none)
  fixed128FromStr := wholeAmount
  scale := decimalsOf
  isOpReturn script := script.head? == some 0x6a
  isProvablyUnspendable script := script.head? == some 0x6a
  tapscript := witnessTapscript
  instructions script := scriptInstructions script.length script
  iterate _ := ascending
  iterate_nodup _ offsets := by
    rw [← Multiset.coe_nodup, coe_ascending]
    exact offsets.nodup
  mem_iterate _ offsets offset := by
    rw [← Multiset.mem_coe, coe_ascending, Finset.mem_val]
  historyJson _ _ := []

end Env

end WjkIndexer
