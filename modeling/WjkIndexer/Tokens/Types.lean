import WjkIndexer.Chain.Types

/-!
Token ticks, amounts, protocol records and the actions and events of the token
state machine. An amount is the raw number of a `Fixed128`, in units of 10^-18; its
arithmetic is checked against 128 bits.
-/

namespace WjkIndexer

structure OriginalTokenTick where
  bytes : Bytes
  size : bytes.length = 8
  deriving DecidableEq, Repr

abbrev LowerCaseTokenTick := Bytes

def trimTickBytes (bytes : Bytes) : Bytes := bytes.rdropWhile (· == 0)

inductive Fault where
  -- `expect("Tick must exist")`
  | tickMustExist
  -- `unwrap` of the account of a transfer's sender
  | senderAccount
  -- `panic!("Invalid transfer sender balance")`
  | invalidSenderBalance
  -- an amount that leaves the range of 128 bits
  | amountOverflow
  -- `unwrap` of the leaked inscriptions of a block that does not begin with a coinbase
  | coinbaseMissing
  -- `unwrap` of the output an input spends
  | prevoutMissing
  deriving DecidableEq, Repr

def amountBound : Nat := 2 ^ 128

def addAmount (left right : Nat) : Except Fault Nat :=
  if left + right < amountBound then .ok (left + right) else .error .amountOverflow

def subAmount (left right : Nat) : Except Fault Nat :=
  if right ≤ left then .ok (left - right) else .error .amountOverflow

theorem addAmount_ok {left right sum : Nat} :
    addAmount left right = .ok sum ↔ left + right < amountBound ∧ sum = left + right := by
  unfold addAmount
  split <;> simp_all [eq_comm]

theorem subAmount_ok {left right rest : Nat} :
    subAmount left right = .ok rest ↔ right ≤ left ∧ rest = left - right := by
  unfold subAmount
  split <;> simp_all [eq_comm]

def OnlyOverflows {α : Type} (result : Except Fault α) : Prop :=
  ∀ fault, result = .error fault → fault = .amountOverflow

namespace OnlyOverflows

theorem ok {α : Type} (value : α) : OnlyOverflows (.ok value) :=
  fun _ impossible => nomatch impossible

theorem bind {α β : Type} {first : Except Fault α} {next : α → Except Fault β}
    (head : OnlyOverflows first) (tail : ∀ value, OnlyOverflows (next value)) :
    OnlyOverflows (first >>= next) := by
  cases first with
  | error reason =>
      intro fault same
      cases same
      exact head reason rfl
  | ok value => exact tail value

theorem addAmount (left right : Nat) : OnlyOverflows (WjkIndexer.addAmount left right) := by
  unfold WjkIndexer.addAmount
  split
  · exact ok _
  · intro fault same
    cases same
    rfl

theorem subAmount (left right : Nat) : OnlyOverflows (WjkIndexer.subAmount left right) := by
  unfold WjkIndexer.subAmount
  split
  · exact ok _
  · intro fault same
    cases same
    rfl

end OnlyOverflows

/-- `Fixed128::from(u64::MAX)`, the largest amount that `bel_20_validate` lets pass. -/
def maxAmount : Nat := (2 ^ 64 - 1) * 10 ^ 18

structure InscriptionId where
  txid : Txid
  index : Nat
  deriving DecidableEq, Repr

structure MintProtoWrapper where
  tick : OriginalTokenTick
  amt : Nat
  deriving DecidableEq, Repr

structure DeployProtoWrapper where
  tick : OriginalTokenTick
  max : Nat
  lim : Option Nat
  dec : Nat
  deriving DecidableEq, Repr

/-- The `p` tag of a protocol record. -/
inductive Protocol where
  | bel20
  | drc20
  | prc20
  | ltc20
  | wjk20
  deriving DecidableEq, Repr

structure MintProto where
  protocol : Protocol
  wrapper : MintProtoWrapper
  deriving DecidableEq, Repr

structure DeployProto where
  protocol : Protocol
  wrapper : DeployProtoWrapper
  deriving DecidableEq, Repr

structure TransferProto where
  protocol : Protocol
  wrapper : MintProtoWrapper
  deriving DecidableEq, Repr

inductive Brc4 where
  | mint (proto : MintProto)
  | deploy (proto : DeployProto)
  | transfer (proto : TransferProto)
  deriving DecidableEq, Repr

inductive Brc4ParseErr where
  | wrongContentType
  | wrongProtocol
  | decimalEmpty
  | decimalOverflow
  | decimalPlusMinus
  | decimalDotStartEnd
  | decimalSpaces
  | invalidDigit
  | invalidUtf8
  | unknown (message : String)
  deriving DecidableEq, Repr

inductive RawBrc4 where
  | mint (protocol : Protocol) (tick amt : Bytes)
  | deploy (protocol : Protocol) (tick max : Bytes) (lim : Option Bytes) (dec : Option UInt8)
  | transfer (protocol : Protocol) (tick amt : Bytes)
  deriving DecidableEq, Repr

/-- What the JSON library makes of a content: `none` when the text is not JSON at all, a
message when it is JSON that does not have the shape of a record. -/
abbrev JsonResult := Except (Option String) RawBrc4

/-- The next value of a counter of `width` bits, which wraps around: overflow is not checked in
a release build. -/
def countUp (width count : Nat) : Nat := (count + 1) % 2 ^ width

theorem countUp_of_lt {width count : Nat} (room : count + 1 < 2 ^ width) :
    countUp width count = count + 1 := Nat.mod_eq_of_lt room

structure DeployProtoDB where
  tick : OriginalTokenTick
  max : Nat
  lim : Nat
  dec : Nat
  supply : Nat
  transferCount : Nat
  mintCount : Nat
  height : Nat
  created : Nat
  deployer : FullHash
  transactions : Nat
  deriving DecidableEq, Repr

structure TokenMeta where
  genesis : InscriptionId
  proto : DeployProtoDB
  deriving DecidableEq, Repr

namespace TokenMeta

def recordMint (token : TokenMeta) (supply : Nat) : TokenMeta :=
  { token with proto := { token.proto with
      supply
      transactions := countUp 32 token.proto.transactions
      mintCount := countUp 64 token.proto.mintCount } }

def recordTransfer (token : TokenMeta) : TokenMeta :=
  { token with proto := { token.proto with
      transferCount := countUp 64 token.proto.transferCount
      transactions := countUp 32 token.proto.transactions } }

def recordSend (token : TokenMeta) : TokenMeta :=
  { token with proto := { token.proto with
      transactions := countUp 32 token.proto.transactions } }

@[simp] theorem recordMint_tick (token : TokenMeta) (supply : Nat) :
    (token.recordMint supply).proto.tick = token.proto.tick := rfl

@[simp] theorem recordMint_supply (token : TokenMeta) (supply : Nat) :
    (token.recordMint supply).proto.supply = supply := rfl

@[simp] theorem recordMint_max (token : TokenMeta) (supply : Nat) :
    (token.recordMint supply).proto.max = token.proto.max := rfl

@[simp] theorem recordTransfer_tick (token : TokenMeta) :
    token.recordTransfer.proto.tick = token.proto.tick := rfl

@[simp] theorem recordTransfer_supply (token : TokenMeta) :
    token.recordTransfer.proto.supply = token.proto.supply := rfl

@[simp] theorem recordTransfer_max (token : TokenMeta) :
    token.recordTransfer.proto.max = token.proto.max := rfl

@[simp] theorem recordSend_tick (token : TokenMeta) :
    token.recordSend.proto.tick = token.proto.tick := rfl

@[simp] theorem recordSend_supply (token : TokenMeta) :
    token.recordSend.proto.supply = token.proto.supply := rfl

@[simp] theorem recordSend_max (token : TokenMeta) :
    token.recordSend.proto.max = token.proto.max := rfl

end TokenMeta

structure TokenBalance where
  balance : Nat := 0
  transferableBalance : Nat := 0
  transfersCount : Nat := 0
  deriving DecidableEq, Repr

namespace TokenBalance

def held (account : TokenBalance) : Nat := account.balance + account.transferableBalance

def credit (account : TokenBalance) (amt : Nat) : TokenBalance :=
  { account with balance := account.balance + amt }

def lock (account : TokenBalance) (amt : Nat) : TokenBalance :=
  { balance := account.balance - amt
    transferableBalance := account.transferableBalance + amt
    transfersCount := countUp 64 account.transfersCount }

def release (account : TokenBalance) (amt : Nat) : TokenBalance :=
  { account with
    transferableBalance := account.transferableBalance - amt
    transfersCount := account.transfersCount - 1 }

@[simp] theorem held_default : ({} : TokenBalance).held = 0 := rfl

@[simp] theorem held_credit (account : TokenBalance) (amt : Nat) :
    (account.credit amt).held = account.held + amt := by
  simp only [held, credit]
  omega

theorem held_lock {account : TokenBalance} {amt : Nat} (covered : amt ≤ account.balance) :
    (account.lock amt).held = account.held := by
  simp only [held, lock]
  omega

theorem held_release {account : TokenBalance} {amt : Nat}
    (covered : amt ≤ account.transferableBalance) :
    (account.release amt).held + amt = account.held := by
  simp only [held, release]
  omega

end TokenBalance

structure AddressToken where
  address : FullHash
  token : OriginalTokenTick
  deriving DecidableEq, Repr

structure AddressLocation where
  address : FullHash
  location : Location
  deriving DecidableEq, Repr

structure AddressOutPoint where
  address : FullHash
  outpoint : OutPoint
  deriving DecidableEq, Repr

structure TransferProtoDB where
  tick : OriginalTokenTick
  amt : Nat
  height : Nat
  deriving DecidableEq, Repr

structure InscriptionTemplate where
  genesis : InscriptionId
  location : Location
  contentType : Option Bytes
  owner : FullHash
  value : Nat
  content : Option Bytes
  leaked : Bool
  deriving DecidableEq, Repr

inductive TokenAction where
  | deploy (genesis : InscriptionId) (proto : DeployProtoDB) (owner : FullHash)
  | mint (owner : FullHash) (proto : MintProtoWrapper) (txid : Txid) (vout : Nat)
  | transfer (location : Location) (owner : FullHash) (proto : MintProtoWrapper)
      (txid : Txid) (vout : Nat)
  | transferred (transferLocation : Location) (recipient : FullHash) (txid : Txid) (vout : Nat)
  deriving DecidableEq, Repr

inductive HistoryTokenAction where
  | deploy (tick : OriginalTokenTick) (max lim : Nat) (dec : Nat) (recipient : FullHash)
      (txid : Txid) (vout : Nat)
  | mint (tick : OriginalTokenTick) (amt : Nat) (recipient : FullHash) (txid : Txid)
      (vout : Nat)
  | deployTransfer (tick : OriginalTokenTick) (amt : Nat) (recipient : FullHash)
      (txid : Txid) (vout : Nat)
  | send (tick : OriginalTokenTick) (amt : Nat) (recipient sender : FullHash)
      (txid : Txid) (vout : Nat)
  deriving DecidableEq, Repr

namespace HistoryTokenAction

def tick : HistoryTokenAction → OriginalTokenTick
  | deploy tick .. => tick
  | mint tick .. => tick
  | deployTransfer tick .. => tick
  | send tick .. => tick

def recipient : HistoryTokenAction → FullHash
  | deploy _ _ _ _ recipient _ _ => recipient
  | mint _ _ recipient _ _ => recipient
  | deployTransfer _ _ recipient _ _ => recipient
  | send _ _ recipient _ _ _ => recipient

def sender : HistoryTokenAction → Option FullHash
  | send _ _ _ sender _ _ => some sender
  | _ => none

end HistoryTokenAction

end WjkIndexer
