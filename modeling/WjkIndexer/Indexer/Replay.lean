import WjkIndexer.Indexer.Run

/-!
Runs of given events, checked step by step, and sample transactions for them.
-/

namespace WjkIndexer

/-- A step of a run whose events are checked. -/
def Process.checkedStep (env : Env) (allowed : Process → Event → Prop)
    [∀ process event, Decidable (allowed process event)] (process : Process) (event : Event) :
    Option Process :=
  if event.Valid env process ∧ allowed process event then (process.step env event).toOption
  else none

def replay (env : Env) (allowed : Process → Event → Prop)
    [∀ process event, Decidable (allowed process event)] (events : List Event) :
    Option Process :=
  events.foldlM (Process.checkedStep env allowed) {}

theorem checkedStep_some {env : Env} {allowed : Process → Event → Prop}
    [∀ process event, Decidable (allowed process event)] {process next : Process} {event : Event}
    (stepped : process.checkedStep env allowed event = some next) :
    event.Valid env process ∧ allowed process event ∧ process.step env event = .ok next := by
  unfold Process.checkedStep at stepped
  split at stepped
  · rename_i checked
    refine ⟨checked.1, checked.2, ?_⟩
    cases result : process.step env event with
    | error fault =>
        rw [result] at stepped
        cases stepped
    | ok value =>
        rw [result] at stepped
        cases stepped
        rfl
  · cases stepped

theorem replay_reachable {env : Env} {allowed : Process → Event → Prop}
    [∀ process event, Decidable (allowed process event)] {events : List Event} {final : Process}
    (ran : replay env allowed events = some final) : Reachable env allowed final := by
  suffices general : ∀ process, Reachable env allowed process →
      events.foldlM (Process.checkedStep env allowed) process = some final →
      Reachable env allowed final from general {} .start ran
  clear ran
  induction events with
  | nil =>
      intro process reached same
      cases same
      exact reached
  | cons event rest ih =>
      intro process reached ran
      rw [List.foldlM_cons] at ran
      obtain ⟨next, stepped, later⟩ := Option.bind_eq_some_iff.mp ran
      obtain ⟨valid, permitted, result⟩ := checkedStep_some stepped
      exact ih next (.step reached valid permitted result) later

theorem replay_any {env : Env} {allowed : Process → Event → Prop}
    [∀ process event, Decidable (allowed process event)] (events : List Event)
    {property : Process → Prop} [DecidablePred property]
    (ran : (replay env allowed events).any (fun process => decide (property process)) = true) :
    ∃ process, Reachable env allowed process ∧ property process := by
  obtain ⟨process, final, holds⟩ := (Option.any_eq_true _ _).mp ran
  exact ⟨process, replay_reachable final, of_decide_eq_true holds⟩

/-! Blocks to run examples on. -/

namespace Sample

def text (letters : String) : Bytes := letters.toUTF8.data.toList

/-- The JSON text of a record of the chain. -/
def json (op tick key value : String) : Bytes :=
  text "\x7b\"p\":\"wjk-20\",\"op\":\"" ++ text op ++ text "\",\"tick\":\"" ++ text tick ++
    text "\",\"" ++ text key ++ text "\":\"" ++ text value ++ text "\"\x7d"

def deploy (tick max : String) : Bytes × RawBrc4 :=
  (json "deploy" tick "max" max, .deploy .wjk20 (text tick) (text max) none none)

def mint (tick amt : String) : Bytes × RawBrc4 :=
  (json "mint" tick "amt" amt, .mint .wjk20 (text tick) (text amt))

def transfer (tick amt : String) : Bytes × RawBrc4 :=
  (json "transfer" tick "amt" amt, .transfer .wjk20 (text tick) (text amt))

def env : Env := .ofRecords .wojakcoin .bellscoin [
  deploy "wojak" "9", mint "wojak" "5", transfer "wojak" "1", transfer "wojak" "2",
  deploy "pepe" "9", mint "pepe" "5", transfer "pepe" "1"]

/-- A tapscript that inscribes a plain text of less than 76 bytes. -/
def envelope (content : Bytes) : Bytes :=
  [0x00, 0x63, 0x03] ++ protocolId ++ [0x01, 0x01, 0x0a] ++ TokenCache.textPlain ++
    [0x00, UInt8.ofNat content.length] ++ content ++ [0x68]

def pay (script : Bytes) (value : Nat) : EvaluatedTxOut :=
  { value, scriptPubkey := script, address := none }

def spend (txid : Txid) (vout : Nat) (inscribed : List (Bytes × RawBrc4)) : TxInput where
  outpoint := ⟨txid, vout⟩
  scriptSig := []
  witness := [inscribed.flatMap fun record => envelope record.1, []]

def coinbase (hash : Txid) (outputs : List EvaluatedTxOut) : Tx where
  hash
  inputs := [{ outpoint := ⟨0, 0xFFFFFFFF⟩, scriptSig := [], witness := [] }]
  outputs

def block (hash : BlockHash) (txs : List Tx) : Block :=
  { header := { hash, prevHash := hash - 1, timestamp := 0 }, txs }

def sender : Bytes := [0x51]

def recipient : Bytes := [0x52]

def wojak : OriginalTokenTick where
  bytes := text "wojak" ++ [0, 0, 0]
  size := by decide +kernel

def pepe : OriginalTokenTick where
  bytes := text "pepe" ++ [0, 0, 0, 0]
  size := by decide +kernel

def payWojak : Block := block 101 [coinbase 1 [pay sender 50]]

def inscribeWojak : Block :=
  block 102 [coinbase 2 [pay sender 50], {
    hash := 3
    inputs := [spend 1 0 [deploy "wojak" "9", mint "wojak" "5", transfer "wojak" "1"]]
    outputs := [pay sender 50] }]

def lockWojak : List Event := [
  .block 1 payWojak true,
  .block 2 inscribeWojak true]

def lockTwice : List Event := [
  .block 1 payWojak true,
  .block 2 (block 102 [coinbase 2 [pay sender 50], {
    hash := 3
    inputs := [spend 1 0
      [deploy "wojak" "9", mint "wojak" "5", transfer "wojak" "1", transfer "wojak" "2"]]
    outputs := [pay sender 50] }]) true]

def moveWojak : Block :=
  block 103 [coinbase 4 [pay sender 50], {
    hash := 5
    inputs := [spend 3 0 []]
    outputs := [pay recipient 50] }]

def mintBoth : List Event := [
  .block 1 (block 101 [coinbase 1 [pay sender 50, pay recipient 50]]) true,
  .block 2 (block 102 [coinbase 2 [pay sender 50], {
    hash := 3
    inputs := [spend 1 0
      [deploy "wojak" "9", deploy "pepe" "9", mint "wojak" "5", mint "pepe" "5"]]
    outputs := [pay sender 50] }, {
    hash := 4
    inputs := [spend 1 1 [mint "wojak" "5"]]
    outputs := [pay recipient 50] }]) true]

def crossTransfers : Block :=
  block 103 [coinbase 5 [pay sender 50], {
    hash := 6
    inputs := [spend 3 0 [transfer "wojak" "1", transfer "pepe" "1"]]
    outputs := [pay sender 50] }, {
    hash := 7
    inputs := [spend 6 0 []]
    outputs := [pay recipient 50] }]

end Sample

end WjkIndexer
