import WjkIndexer.Chain.Types
import WjkIndexer.Library.Utf8
import WjkIndexer.Library.Sha256
import WjkIndexer.Library.Bytes

/-!
Output scripts and addresses: the address that a script evaluates to, and the script hash that an
address is looked up by. Codecs and script tests are those of the node library.
-/

namespace WjkIndexer.Blk

open ByteString

inductive Coin where
  | bitcoin
  | bitcoinTestnet
  | litecoin
  | litecoinTestnet
  | dogecoin
  | dogecoinTestnet
  | bellscoin
  | bellscoinTestnet
  | pepecoin
  | pepecoinTestnet
  | wojakcoin
  | wojakcoinTestnet
  deriving DecidableEq, Repr

structure CoinType where
  name : String
  pubkeyAddress : UInt8
  scriptAddress : UInt8
  bech32 : String
  deriving DecidableEq, Repr

def Coin.coinType : Coin → CoinType
  | bitcoin => { name := "Bitcoin", pubkeyAddress := 0, scriptAddress := 5, bech32 := "bc" }
  | bitcoinTestnet =>
      { name := "Bitcoin Testnet", pubkeyAddress := 113, scriptAddress := 196, bech32 := "tb" }
  | litecoin => { name := "Litecoin", pubkeyAddress := 0, scriptAddress := 5, bech32 := "lt" }
  | litecoinTestnet =>
      { name := "Litecoin Testnet", pubkeyAddress := 111, scriptAddress := 196, bech32 := "tlt" }
  | dogecoin => { name := "Dogecoin", pubkeyAddress := 30, scriptAddress := 22, bech32 := "dg" }
  | dogecoinTestnet =>
      { name := "Dogecoin Testnet", pubkeyAddress := 113, scriptAddress := 196, bech32 := "tdg" }
  | bellscoin => { name := "Bellscoin", pubkeyAddress := 25, scriptAddress := 30, bech32 := "bel" }
  | bellscoinTestnet =>
      { name := "Bellscoin Testnet", pubkeyAddress := 33, scriptAddress := 22, bech32 := "tbel" }
  | pepecoin => { name := "Pepecoin", pubkeyAddress := 56, scriptAddress := 22, bech32 := "pe" }
  | pepecoinTestnet =>
      { name := "Pepecoin Testnet", pubkeyAddress := 113, scriptAddress := 196, bech32 := "tpe" }
  | wojakcoin => { name := "Wojakcoin", pubkeyAddress := 73, scriptAddress := 5, bech32 := "wjk" }
  | wojakcoinTestnet =>
      { name := "Wojakcoin Testnet", pubkeyAddress := 113, scriptAddress := 196, bech32 := "twjk" }

abbrev Hash160 := { bytes : Bytes // bytes.length = 20 }

inductive Payload (WitnessProgram : Type) where
  | pubkeyHash (hash : Hash160)
  | scriptHash (hash : Hash160)
  | witnessProgram (program : WitnessProgram)

inductive Variant where
  | bech32
  | bech32m
  deriving DecidableEq, Repr

def Variant.debug : Variant → String
  | bech32 => "Bech32"
  | bech32m => "Bech32m"

inductive Instruction where
  | pushBytes (bytes : Bytes)
  | op
  -- the script breaks off
  | invalid
  deriving DecidableEq, Repr

structure ScriptLibrary (WitnessProgram : Type) where
  isOpReturn : Bytes → Bool
  isP2pk : Bytes → Bool
  isP2pkh : Bytes → Bool
  isP2sh : Bytes → Bool
  isV0P2wpkh : Bytes → Bool
  isV0P2wsh : Bytes → Bool
  isV1P2tr : Bytes → Bool
  isWitnessProgram : Bytes → Bool
  -- the class of an opcode is `ReturnOp` or `IllegalOp`
  returnsOrIllegal : UInt8 → Bool
  firstInstruction : Bytes → Option Instruction
  -- `PublicKey::from_slice` and the hash in `Payload::p2pkh`
  keyHash : Bytes → Option Hash160
  fromScript : Bytes → Except String (Payload WitnessProgram)
  scriptPubkey : Payload WitnessProgram → Bytes
  -- base58 with a checksum
  encodeCheck : Bytes → String
  decodeCheck : String → Except String Bytes
  -- the bech32 address of a witness program under a human-readable part
  encodeWitness : String → WitnessProgram → String
  bech32Decode : String → Except String (List (Fin 32) × Variant)
  witnessVersion : Fin 32 → Except String (Fin 17)
  fromBase32 : List (Fin 32) → Except String Bytes
  newProgram : Fin 17 → Bytes → Except String WitnessProgram
  bech32Variant : Fin 17 → Variant
  hexDecode : String → Except String Bytes

variable {WitnessProgram : Type} (lib : ScriptLibrary WitnessProgram)

inductive ScriptPattern where
  | opReturn (data : String)
  | pay2PublicKey
  | pay2PublicKeyHash
  | pay2ScriptHash
  | pay2WitnessPublicKeyHash
  | pay2WitnessScriptHash
  | witnessProgram
  | pay2Taproot
  | unspendable
  | notRecognised
  deriving DecidableEq, Repr

structure EvaluatedScript where
  address : Option String
  pattern : ScriptPattern
  deriving DecidableEq, Repr

inductive Unreachable where
  | unreachable
  deriving DecidableEq, Repr

def isProvableUnspendable (script : Bytes) : Bool := script.head?.any lib.returnsOrIllegal

def payloadToAddressStr (payload : Payload WitnessProgram) (coin : CoinType) : String :=
  match payload with
  | .pubkeyHash hash => lib.encodeCheck (coin.pubkeyAddress :: hash.1)
  | .scriptHash hash => lib.encodeCheck (coin.scriptAddress :: hash.1)
  | .witnessProgram program => lib.encodeWitness coin.bech32 program

def scriptToAddressStr (script : Bytes) (coin : CoinType) : Option String :=
  match lib.fromScript script with
  | .ok payload => some (payloadToAddressStr lib payload coin)
  | .error _ => none

def p2pkToString (script : Bytes) (coin : CoinType) : Except Unreachable (Option String) :=
  match lib.firstInstruction script with
  | some (.pushBytes key) =>
      .ok ((lib.keyHash key).map fun hash => payloadToAddressStr lib (.pubkeyHash hash) coin)
  | some .invalid => .ok none
  | _ => .error .unreachable

def evalFromBytes (script : Bytes) (coin : CoinType) : Except Unreachable EvaluatedScript :=
  if lib.isOpReturn script then
    let data := String.fromUTF8? (script.drop 2).toByteArray
    .ok { address := none, pattern := .opReturn (data.getD "") }
  else if isProvableUnspendable lib script then .ok { address := none, pattern := .unspendable }
  else
    let address := scriptToAddressStr lib script coin
    if lib.isP2pk script then
      (p2pkToString lib script coin).map fun address => { address, pattern := .pay2PublicKey }
    else if lib.isP2pkh script then .ok { address, pattern := .pay2PublicKeyHash }
    else if lib.isP2sh script then .ok { address, pattern := .pay2ScriptHash }
    else if lib.isV0P2wpkh script then .ok { address, pattern := .pay2WitnessPublicKeyHash }
    else if lib.isV0P2wsh script then .ok { address, pattern := .pay2WitnessScriptHash }
    else if lib.isV1P2tr script then .ok { address, pattern := .pay2Taproot }
    else if lib.isWitnessProgram script then .ok { address, pattern := .witnessProgram }
    else .ok { address, pattern := .notRecognised }

def hrpOf (address : String) : Option String :=
  match address.toList.reverse.dropWhile (· != '1') with
  | [] => none
  | _ :: before => some (String.ofList before.reverse)

def base58ToPayload (address : String) (coin : CoinType) :
    Except String (Payload WitnessProgram) := do
  let data ← lib.decodeCheck address
  if sized : data.length = 21 then
    let version := data.headD 0
    let hash : Hash160 := ⟨data.tail, by rw [List.length_tail, sized]⟩
    if version = coin.pubkeyAddress then .ok (.pubkeyHash hash)
    else if version = coin.scriptAddress then .ok (.scriptHash hash)
    else .error "Invalid address version"
  else .error "Invalid address length"

def addressToPayload (address : String) (coin : CoinType) :
    Except String (Payload WitnessProgram) :=
  if (hrpOf address).any (· == coin.bech32) then do
    let (payload, variant) ← lib.bech32Decode address
    match payload with
    | [] => .error "Empty bech32 payload"
    | first :: rest => do
        let version ← lib.witnessVersion first
        let program ← lib.fromBase32 rest
        let witnessProgram ← lib.newProgram version program
        let expected := lib.bech32Variant version
        if expected ≠ variant then
          .error ("Invalid bech32 variant. Expected: " ++ expected.debug ++ ", found: " ++
            variant.debug)
        else .ok (.witnessProgram witnessProgram)
  else if (Utf8.encode address.toList).length > 50 then .error "Invalid address length"
  else base58ToPayload lib address coin

inductive ScriptType where
  | address
  | scriptHash
  deriving DecidableEq, Repr

def addressToFullhash (sha256 : Bytes → FullHash) (address : String) (scriptType : ScriptType)
    (coin : CoinType) : Except String FullHash :=
  match scriptType with
  | .address => do
      let payload ← addressToPayload lib address coin
      .ok (sha256 (lib.scriptPubkey payload))
  | .scriptHash => do
      let bytes ← lib.hexDecode address
      if bytes.length = 32 then .ok (BitVec.ofNat 256 (ofBeBytes bytes))
      else .error "Invalid script hash length"

/-- The node library does what it is documented to do: its codecs are inverse to each other, and a
payload is read from its own script only. -/
structure ScriptLibrary.Correct (lib : ScriptLibrary WitnessProgram) : Prop where
  script : ∀ script payload, lib.fromScript script = .ok payload →
    lib.scriptPubkey payload = script
  base58 : ∀ bytes, lib.decodeCheck (lib.encodeCheck bytes) = .ok bytes
  short : ∀ bytes, bytes.length = 21 →
    (Utf8.encode (lib.encodeCheck bytes).toList).length ≤ 50
  -- no base58 address of a coin begins like one of its bech32 addresses
  apart : ∀ (coin : Coin) version (hash : Hash160),
    version = coin.coinType.pubkeyAddress ∨ version = coin.coinType.scriptAddress →
      ¬ coin.coinType.bech32.toList <+: (lib.encodeCheck (version :: hash.1)).toList
  bech32 : ∀ hrp program, ∃ data first rest version bytes,
    lib.encodeWitness hrp program = hrp ++ "1" ++ String.ofList data ∧ '1' ∉ data ∧
      lib.bech32Decode (lib.encodeWitness hrp program) =
        .ok (first :: rest, lib.bech32Variant version) ∧
      lib.witnessVersion first = .ok version ∧ lib.fromBase32 rest = .ok bytes ∧
      lib.newProgram version bytes = .ok program

theorem hrpOf_isPrefix {address hrp : String} (found : hrpOf address = some hrp) :
    hrp.toList <+: address.toList := by
  rw [hrpOf] at found
  have suffix := List.dropWhile_suffix (l := address.toList.reverse) (· != '1')
  generalize address.toList.reverse.dropWhile (· != '1') = rest at found suffix
  cases rest with
  | nil => cases found
  | cons one before =>
      cases found
      have whole := List.reverse_prefix.mpr suffix
      rw [List.reverse_reverse, List.reverse_cons] at whole
      rw [String.toList_ofList]
      exact (List.prefix_append _ _).trans whole

theorem hrpOf_joined (hrp : String) {data : List Char} (plain : '1' ∉ data) :
    hrpOf (hrp ++ "1" ++ String.ofList data) = some hrp := by
  have shape : (hrp ++ "1" ++ String.ofList data).toList.reverse =
      data.reverse ++ '1' :: hrp.toList.reverse := by
    simp only [String.toList_append, String.toList_ofList, List.reverse_append]
    rfl
  have dropped : (data.reverse ++ '1' :: hrp.toList.reverse).dropWhile (· != '1') =
      '1' :: hrp.toList.reverse := by
    rw [List.dropWhile_append_of_pos]
    · rfl
    · intro symbol listed
      rw [bne_iff_ne]
      rintro rfl
      exact plain (List.mem_reverse.mp listed)
  rw [hrpOf, shape, dropped]
  simp only [List.reverse_reverse, String.ofList_toList]

variable {lib} {coin : Coin}

theorem base58ToPayload_encoded (correct : lib.Correct) {version : UInt8} (hash : Hash160) :
    base58ToPayload lib (lib.encodeCheck (version :: hash.1)) coin.coinType =
      if version = coin.coinType.pubkeyAddress then .ok (.pubkeyHash hash)
      else if version = coin.coinType.scriptAddress then .ok (.scriptHash hash)
      else .error "Invalid address version" := by
  have sized : (version :: hash.1).length = 21 := by
    rw [List.length_cons, hash.2]
  rw [base58ToPayload, correct.base58]
  simp only [bind, Except.bind, dif_pos sized, List.headD_cons, List.tail_cons]
  rfl

theorem addressToPayload_base58 (correct : lib.Correct) {version : UInt8}
    (known : version = coin.coinType.pubkeyAddress ∨ version = coin.coinType.scriptAddress)
    (hash : Hash160) :
    addressToPayload lib (lib.encodeCheck (version :: hash.1)) coin.coinType =
      base58ToPayload lib (lib.encodeCheck (version :: hash.1)) coin.coinType := by
  have apart := correct.apart coin version hash known
  have short := correct.short (version :: hash.1) (by rw [List.length_cons, hash.2])
  generalize lib.encodeCheck (version :: hash.1) = address at apart short
  have other : ¬ ((hrpOf address).any (· == coin.coinType.bech32)) = true := by
    intro same
    cases found : hrpOf address with
    | none =>
        rw [found] at same
        cases same
    | some hrp =>
        rw [found, Option.any_some, beq_iff_eq] at same
        rw [← same] at apart
        exact apart (hrpOf_isPrefix found)
  rw [addressToPayload, if_neg other, if_neg (Nat.not_lt.mpr short)]

theorem addressToPayload_encoded (correct : lib.Correct) (payload : Payload WitnessProgram) :
    addressToPayload lib (payloadToAddressStr lib payload coin.coinType) coin.coinType =
      .ok payload := by
  cases payload with
  | pubkeyHash hash =>
      rw [payloadToAddressStr, addressToPayload_base58 correct (Or.inl rfl),
        base58ToPayload_encoded correct, if_pos rfl]
  | scriptHash hash =>
      have different : coin.coinType.scriptAddress ≠ coin.coinType.pubkeyAddress := by
        cases coin <;> decide
      rw [payloadToAddressStr, addressToPayload_base58 correct (Or.inr rfl),
        base58ToPayload_encoded correct, if_neg different, if_pos rfl]
  | witnessProgram program =>
      obtain ⟨data, first, rest, version, bytes, shape, plain, decoded, valid, converted, made⟩ :=
        correct.bech32 coin.coinType.bech32 program
      have found : hrpOf (lib.encodeWitness coin.coinType.bech32 program) =
          some coin.coinType.bech32 := by
        rw [shape, hrpOf_joined _ plain]
      rw [payloadToAddressStr, addressToPayload, if_pos (by rw [found]; simp), decoded]
      simp only [bind, Except.bind, valid, converted, made, ne_eq, not_true_eq_false, if_false]

theorem addressToFullhash_encoded (correct : lib.Correct) (sha256 : Bytes → FullHash)
    (payload : Payload WitnessProgram) :
    addressToFullhash lib sha256 (payloadToAddressStr lib payload coin.coinType) .address
        coin.coinType = .ok (sha256 (lib.scriptPubkey payload)) := by
  simp only [addressToFullhash, addressToPayload_encoded correct, bind, Except.bind]

def keyHashOf (lib : ScriptLibrary WitnessProgram) (script : Bytes) : Option Hash160 :=
  match lib.firstInstruction script with
  | some (.pushBytes key) => lib.keyHash key
  | _ => none

theorem evalFromBytes_address {script : Bytes} {evaluated : EvaluatedScript} {address : String}
    (reported : evalFromBytes lib script coin.coinType = .ok evaluated)
    (shown : evaluated.address = some address) :
    if lib.isP2pk script then ∃ hash, keyHashOf lib script = some hash ∧
      address = payloadToAddressStr lib (.pubkeyHash hash) coin.coinType
    else ∃ payload, lib.fromScript script = .ok payload ∧
      address = payloadToAddressStr lib payload coin.coinType := by
  have payloads : scriptToAddressStr lib script coin.coinType = some address →
      ∃ payload, lib.fromScript script = .ok payload ∧
        address = payloadToAddressStr lib payload coin.coinType := by
    intro found
    rw [scriptToAddressStr] at found
    cases parsed : lib.fromScript script with
    | error _ =>
        rw [parsed] at found
        cases found
    | ok payload =>
        rw [parsed] at found
        cases found
        exact ⟨payload, rfl, rfl⟩
  rw [evalFromBytes] at reported
  split at reported
  · cases reported
    cases shown
  · split at reported
    · cases reported
      cases shown
    · split at reported
      · rename_i pays
        rw [if_pos pays]
        rw [p2pkToString] at reported
        cases read : lib.firstInstruction script with
        | none =>
            rw [read] at reported
            cases reported
        | some instruction =>
            rw [read] at reported
            cases instruction with
            | pushBytes key =>
                cases reported
                obtain ⟨hash, hashed, rfl⟩ := Option.map_eq_some_iff.mp shown
                refine ⟨hash, ?_, rfl⟩
                rw [keyHashOf, read]
                exact hashed
            | op => cases reported
            | invalid =>
                cases reported
                cases shown
      · rename_i other
        rw [if_neg other]
        apply payloads
        split_ifs at reported <;> (cases reported; exact shown)

/-- The script hash that an address is looked up by is that of the script that it is reported for,
unless the script pays to a key: then it is that of the script that pays to the hash of the key. -/
theorem fullhash_iff (correct : lib.Correct) (sha256 : Bytes → FullHash) (coin : Coin)
    {script : Bytes} {evaluated : EvaluatedScript} {address : String}
    (reported : evalFromBytes lib script coin.coinType = .ok evaluated)
    (shown : evaluated.address = some address) :
    addressToFullhash lib sha256 address .address coin.coinType = .ok (sha256 script) ↔
      (lib.isP2pk script = true → ∀ hash, keyHashOf lib script = some hash →
        sha256 (lib.scriptPubkey (.pubkeyHash hash)) = sha256 script) := by
  have origin := evalFromBytes_address reported shown
  by_cases pays : lib.isP2pk script = true
  · rw [if_pos pays] at origin
    obtain ⟨hash, hashed, rfl⟩ := origin
    rw [addressToFullhash_encoded correct, Except.ok.injEq]
    constructor
    · intro same _ other found
      rw [hashed] at found
      cases found
      exact same
    · intro same
      exact same pays hash hashed
  · rw [if_neg pays] at origin
    obtain ⟨payload, parsed, rfl⟩ := origin
    rw [addressToFullhash_encoded correct, correct.script script payload parsed]
    exact ⟨fun _ impossible => absurd impossible pays, fun _ => rfl⟩

namespace Sample

def key : Bytes :=
  [2, 121, 190, 102, 126, 249, 220, 187, 172, 85, 160, 98, 149, 206, 135, 11, 7, 2, 155, 252, 219,
    45, 206, 40, 217, 89, 242, 129, 91, 22, 248, 23, 152]

def keyHash : Hash160 :=
  ⟨[117, 30, 118, 232, 25, 145, 150, 212, 84, 148, 28, 69, 209, 179, 163, 35, 241, 67, 59, 214],
    rfl⟩

def keyAddress : String := "WZMJS5eeCEgiqxNK1QRbE1HR4wFQwmCjJV"

def p2pkScript : Bytes := 33 :: key ++ [0xac]

def p2pkhScript (hash : Hash160) : Bytes := [0x76, 0xa9, 20] ++ hash.1 ++ [0x88, 0xac]

def letter (byte : UInt8) : Char := Char.ofNat (256 + byte.toNat)

def library : ScriptLibrary Unit where
  isOpReturn script := script.head? == some 0x6a
  isP2pk script :=
    (script.length == 35 && script.head? == some 33 ||
      script.length == 67 && script.head? == some 65) && script.getLast? == some 0xac
  isP2pkh script := script == p2pkhScript keyHash
  isP2sh _ := false
  isV0P2wpkh _ := false
  isV0P2wsh _ := false
  isV1P2tr _ := false
  isWitnessProgram _ := false
  returnsOrIllegal opcode := opcode == 0x6a
  firstInstruction script :=
    match script with
    | [] => none
    | opcode :: rest =>
        if opcode ≤ 75 then
          if opcode.toNat ≤ rest.length then some (.pushBytes (rest.take opcode.toNat))
          else some .invalid
        else some .op
  keyHash bytes := if bytes = key then some keyHash else none
  fromScript script :=
    if script = p2pkhScript keyHash then .ok (.pubkeyHash keyHash)
    else .error "unrecognized script"
  scriptPubkey payload :=
    match payload with
    | .pubkeyHash hash => p2pkhScript hash
    | .scriptHash hash => [0xa9, 20] ++ hash.1 ++ [0x87]
    | .witnessProgram () => [0x51, 2, 0x4e, 0x73]
  encodeCheck bytes :=
    if bytes = 73 :: keyHash.1 then keyAddress else String.ofList (bytes.map letter)
  decodeCheck address :=
    if address = keyAddress then .ok (73 :: keyHash.1)
    else .ok (address.toList.map fun char => UInt8.ofNat (char.toNat - 256))
  encodeWitness hrp _ := hrp ++ "1" ++ String.ofList "pfeessrawgf".toList
  bech32Decode _ := .ok ([1, 9, 25, 25, 16], .bech32m)
  witnessVersion _ := .ok 1
  fromBase32 _ := .ok [0x4e, 0x73]
  newProgram _ _ := .ok ()
  bech32Variant version := if version = 0 then .bech32 else .bech32m
  hexDecode _ := .error "Invalid hex"

theorem letter_toNat (byte : UInt8) : (letter byte).toNat = 256 + byte.toNat := by
  have all : ∀ number < 256, (Char.ofNat (256 + number)).toNat = 256 + number := by
    decide +kernel
  exact all byte.toNat byte.toNat_lt

theorem letter_width (byte : UInt8) : (letter byte).utf8Size = 2 := by
  have all : ∀ number < 256, (Char.ofNat (256 + number)).utf8Size = 2 := by
    decide +kernel
  exact all byte.toNat byte.toNat_lt

theorem letters_back (bytes : Bytes) :
    (bytes.map letter).map (fun char => UInt8.ofNat (char.toNat - 256)) = bytes := by
  rw [List.map_map]
  conv_rhs => rw [← List.map_id bytes]
  apply List.map_congr_left
  intro byte _
  simp only [Function.comp_apply, letter_toNat, Nat.add_sub_cancel_left, UInt8.ofNat_toNat, id]

theorem letters_width (bytes : Bytes) :
    (Utf8.encode (bytes.map letter)).length = 2 * bytes.length := by
  induction bytes with
  | nil => rfl
  | cons byte rest ih =>
      have split : Utf8.encode ((byte :: rest).map letter) =
          String.utf8EncodeChar (letter byte) ++ Utf8.encode (rest.map letter) := by
        simp [Utf8.encode]
      rw [split, List.length_append, ih, String.length_utf8EncodeChar, letter_width,
        List.length_cons]
      omega

theorem hrp_lower (coin : Coin) :
    ∃ first rest, coin.coinType.bech32.toList = first :: rest ∧ first.toNat < 256 ∧
      first ≠ 'W' := by
  cases coin <;> exact ⟨_, _, rfl, by decide, by decide⟩

theorem library_correct : library.Correct where
  script script payload parsed := by
    simp only [library] at parsed ⊢
    split at parsed
    · rename_i same
      cases parsed
      exact same.symm
    · cases parsed
  base58 bytes := by
    simp only [library]
    by_cases known : bytes = 73 :: keyHash.1
    · rw [if_pos known, if_pos rfl, known]
    · have other : String.ofList (bytes.map letter) ≠ keyAddress := by
        intro same
        have chars := congrArg String.toList same
        rw [String.toList_ofList] at chars
        cases bytes with
        | nil => cases chars
        | cons byte rest =>
            have head := congrArg (fun text => (text.headD 'W').toNat) chars
            rw [List.map_cons, List.headD_cons, letter_toNat] at head
            have first : (keyAddress.toList.headD 'W').toNat = 87 := by decide
            rw [first] at head
            omega
      rw [if_neg known, if_neg other, String.toList_ofList, letters_back]
  short bytes sized := by
    simp only [library]
    split
    · decide
    · rw [String.toList_ofList, letters_width]
      omega
  apart coin version hash _ same := by
    obtain ⟨first, rest, lower, small, different⟩ := hrp_lower coin
    rw [lower] at same
    simp only [library] at same
    split at same
    · have head := (List.cons_prefix_cons.mp same).1
      exact different head
    · rw [String.toList_ofList, List.map_cons] at same
      have head := (List.cons_prefix_cons.mp same).1
      have number := letter_toNat version
      rw [← head] at number
      omega
  bech32 hrp program :=
    ⟨"pfeessrawgf".toList, 1, [9, 25, 25, 16], 1, [0x4e, 0x73], rfl, by decide, rfl, rfl, rfl, rfl⟩

end Sample

theorem p2pkh_found :
    addressToFullhash Sample.library Sha256.digest Sample.keyAddress .address
        Coin.wojakcoin.coinType =
      .ok (Sha256.digest (Sample.p2pkhScript Sample.keyHash)) := by
  have reported : evalFromBytes Sample.library (Sample.p2pkhScript Sample.keyHash)
      Coin.wojakcoin.coinType =
      .ok { address := some Sample.keyAddress, pattern := .pay2PublicKeyHash } := by
    decide +kernel
  exact (fullhash_iff Sample.library_correct Sha256.digest .wojakcoin reported rfl).mpr
    (by decide +kernel)

/-- A script that pays to the key itself is reported with the same address, under which it is not
found. -/
theorem p2pk_lost :
    Sample.library.Correct ∧
      evalFromBytes Sample.library Sample.p2pkScript Coin.wojakcoin.coinType =
        .ok { address := some Sample.keyAddress, pattern := .pay2PublicKey } ∧
      addressToFullhash Sample.library Sha256.digest Sample.keyAddress .address
          Coin.wojakcoin.coinType ≠
        .ok (Sha256.digest Sample.p2pkScript) :=
  ⟨Sample.library_correct, by decide +kernel, by decide +kernel⟩

end WjkIndexer.Blk
