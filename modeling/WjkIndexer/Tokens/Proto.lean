import WjkIndexer.Env

/-!
Decoding of protocol records: the checks on ticks and amounts, and the records a chain
accepts.
-/

namespace WjkIndexer

def MintProto.value (env : Env) (proto : MintProto) : Option MintProtoWrapper :=
  if env.supports proto.protocol then some proto.wrapper else none

def DeployProto.value (env : Env) (proto : DeployProto) : Option DeployProtoWrapper :=
  if env.supports proto.protocol then some proto.wrapper else none

def TransferProto.value (env : Env) (proto : TransferProto) : Option MintProtoWrapper :=
  if env.supports proto.protocol then some proto.wrapper else none

variable (env : Env)

def bel20Validate (val : Bytes) : Except String Nat :=
  if val.head? = some 0x2b ∨ val.head? = some 0x2d then
    .error "value cannot start from + or -"
  else if val.head? = some 0x2e ∨ val.getLast? = some 0x2e then
    .error "value cannot start or end with ."
  else if val.head? = some 0x20 ∨ val.getLast? = some 0x20 then
    .error "value cannot contain spaces"
  else
    match env.fixed128FromStr val with
    | .ok v => if maxAmount < v then .error "value is too large" else .ok v
    | .error message => .error message

theorem bel20Validate_le {val : Bytes} {amt : Nat} (validated : bel20Validate env val = .ok amt) :
    amt ≤ maxAmount := by
  unfold bel20Validate at validated
  split at validated
  · cases validated
  split at validated
  · cases validated
  split at validated
  · cases validated
  split at validated
  · split at validated
    · cases validated
    · rename_i small
      cases validated
      omega
  · cases validated

def tickByteLen : Nat := if env.blockchain = .wojakcoin then 8 else 4

theorem tickByteLen_le : tickByteLen env ≤ 8 := by
  unfold tickByteLen
  split <;> omega

def padTickBytes (bytes : Bytes) : Except String OriginalTokenTick :=
  if fits : bytes ≠ [] ∧ bytes.length ≤ tickByteLen env then
    .ok {
      bytes := bytes ++ List.replicate (8 - bytes.length) 0
      size := by
        have bound := tickByteLen_le env
        have short := fits.2
        simp only [List.length_append, List.length_replicate]
        omega }
  else .error "invalid token tick"

def DeployProto.defaultDec : Nat := 18

def DeployProto.maxDec : Nat := 18

def RawBrc4.decode : RawBrc4 → Except String Brc4
  | .mint protocol tick amt => do
      let tick ← padTickBytes env tick
      let amt ← bel20Validate env amt
      .ok (.mint { protocol, wrapper := { tick, amt } })
  | .deploy protocol tick max lim dec => do
      let tick ← padTickBytes env tick
      let max ← bel20Validate env max
      let lim ← lim.mapM (bel20Validate env)
      let dec := (dec.map UInt8.toNat).getD DeployProto.defaultDec
      .ok (.deploy { protocol, wrapper := { tick, max, lim, dec } })
  | .transfer protocol tick amt => do
      let tick ← padTickBytes env tick
      let amt ← bel20Validate env amt
      .ok (.transfer { protocol, wrapper := { tick, amt } })

end WjkIndexer
