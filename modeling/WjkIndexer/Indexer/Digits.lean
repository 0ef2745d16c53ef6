import WjkIndexer.Indexer.Replay
import WjkIndexer.Indexer.Tokens
import WjkIndexer.Tokens.Digits

/-!
The decimals of amounts over whole runs: what is stored of a token has no more decimals than it
was deployed with, as long as its maximum has not when a mint is cut down to the rest of it.
-/

namespace WjkIndexer

open FiniteTable TokenCache

structure DigitsLedger (env : Env) (db : DB) : Prop where
  supplies : ∀ key token, db.tokenToMeta.get key = some token →
    WithinDigits token.proto.dec token.proto.supply
  accounts : ∀ key account, db.addressTokenToBalance.get key = some account →
    AccountFits env db.tokenToMeta key.token account
  transfers : ∀ key proto, db.addressLocationToTransfer.get key = some proto →
    Representable env db.tokenToMeta proto.tick proto.amt

/-- No action of a block meets a defect when its turn comes. -/
def DecimalsSafe (env : Env) (process : Process) : Event → Prop
  | .block height block _ => ∀ parsed,
      Parser.parseBlock env process.db height block (spentPrevouts env process.db block)
        (loadedCache env process.db block) = .ok parsed →
      Machine.Along (Processing.step env) (DigitsSafe env) {
        cache := { parsed.cache.loadTokensData env process.db with tokenActions := [] }
        holders := process.server.holders } parsed.cache.tokenActions
  | _ => True

instance (env : Env) (process : Process) (event : Event) :
    Decidable (DecimalsSafe env process event) :=
  match event with
  | .block height block _ => inferInstanceAs (Decidable (∀ parsed,
      Parser.parseBlock env process.db height block (spentPrevouts env process.db block)
        (loadedCache env process.db block) = .ok parsed →
      Machine.Along (Processing.step env) (DigitsSafe env) {
        cache := { parsed.cache.loadTokensData env process.db with tokenActions := [] }
        holders := process.server.holders } parsed.cache.tokenActions))
  | .restore _ => inferInstanceAs (Decidable True)
  | .restart => inferInstanceAs (Decidable True)

section Block

variable {env : Env} {db next : DB} {process : Process} {height : Nat} {block : Block}
  {parsed : Parser.Parsed} {handled : Handled}

theorem DigitsLedger.congr {left right : DB} (digits : DigitsLedger env left)
    (tokens : right.tokenToMeta = left.tokenToMeta)
    (accounts : right.addressTokenToBalance = left.addressTokenToBalance)
    (transfers : right.addressLocationToTransfer = left.addressLocationToTransfer) :
    DigitsLedger env right where
  supplies := by
    rw [tokens]
    exact digits.supplies
  accounts := by
    rw [tokens, accounts]
    exact digits.accounts
  transfers := by
    rw [tokens, transfers]
    exact digits.transfers

theorem deploysEmpty_parsed
    (parsing : Parser.parseBlock env db height block (spentPrevouts env db block)
      (loadedCache env db block) = .ok parsed) :
    ∀ action ∈ parsed.cache.tokenActions, action.DeploysEmpty := by
  intro action listed
  have own := ((parseBlock_spec parsing).feed.fed rfl).own action listed
  cases action with
  | deploy genesis proto owner => exact own
  | mint | transfer | transferred => trivial

theorem digits_start (digits : DigitsLedger env db)
    (parsing : Parser.parseBlock env db height block (spentPrevouts env db block)
      (loadedCache env db block) = .ok parsed) :
    DigitsRunning env db { parsed.cache.loadTokensData env db with tokenActions := [] } [] := by
  have tokens : (live db (parsed.cache.loadTokensData env db)).tokens = db.tokenToMeta :=
    Table.extend_restrict _ _
  constructor
  · rw [show (live db { parsed.cache.loadTokensData env db with tokenActions := [] }).tokens =
      db.tokenToMeta from tokens]
    exact .refl _
  · exact fun key token found => digits.supplies key token (loaded_tokens_sub _ _ found)
  · intro key account found
    exact tokens ▸ digits.accounts key account (loaded_accounts_sub _ _ found)
  · intro location sender data valid
    change parsed.cache.validTransfers.get location = some (sender, data) at valid
    rw [((parseBlock_spec parsing).feed.fed rfl).validTransfers] at valid
    exact tokens ▸ digits.transfers _ _ (loaded_stored valid)
  · exact fun _ impossible => (List.not_mem_nil impossible).elim

theorem digits_written {done : Processing} {unspent : Finset AddressLocation}
    (digits : DigitsLedger env db) (running : DigitsRunning env db done.cache done.history)
    (tokens : next.tokenToMeta = (live db done.cache).tokens)
    (accounts : next.addressTokenToBalance = (live db done.cache).tokenAccounts)
    (transfers : next.addressLocationToTransfer =
      (db.addressLocationToTransfer.removeBatch unspent).extend
        (transfersToWrite done.cache.validTransfers)) :
    DigitsLedger env next where
  supplies key token found := by
    rw [tokens, live, Table.get_extend, Option.or_eq_some_iff] at found
    rcases found with new | ⟨_, old⟩
    · exact running.supplies key token new
    · exact digits.supplies key token old
  accounts key account found := by
    rw [accounts, live, Table.get_extend, Option.or_eq_some_iff] at found
    rw [tokens]
    rcases found with new | ⟨_, old⟩
    · exact running.accounts key account new
    · obtain ⟨free, locked⟩ := digits.accounts key account old
      exact ⟨free.mono running.kept, locked.mono running.kept⟩
  transfers key proto found := by
    rw [transfers, Table.get_extend, Option.or_eq_some_iff] at found
    rw [tokens]
    rcases found with new | ⟨_, old⟩
    · obtain ⟨record, valid⟩ := mem_transfersToWrite.mp (Table.mem_keys_iff.mpr ⟨proto, new⟩)
      rw [get_transfersToWrite, valid, Option.bind_some, if_pos rfl, Option.some.injEq] at new
      exact new ▸ running.transfers _ _ _ valid
    · rw [Table.get_removeBatch] at old
      split at old
      · cases old
      · exact (digits.transfers key proto old).mono running.kept

def DigitsFiled (env : Env) (db : DB) (_ : Chain) : Prop :=
  DigitsLedger env db ∧ WellFiled env db.tokenToMeta db.addressTokenToBalance

theorem digits_ofLedger : OfLedger (DigitsFiled env) := by
  rintro left right chain same ⟨digits, filed⟩
  exact ⟨digits.congr same.tokenToMeta.symm same.addressTokenToBalance.symm
    same.addressLocationToTransfer.symm, filed_ofLedger left right chain same filed⟩

theorem digits_empty : DigitsFiled env {} [] := by
  refine ⟨?_, filed_empty⟩
  exact {
    supplies := fun _ _ found => nomatch found
    accounts := fun _ _ found => nomatch found
    transfers := fun _ _ found => nomatch found }

theorem digits_processed (counts : env.CountsDecimals) (sound : Sound (DigitsFiled env) process)
    {handleReorgs : Bool} (valid : (Event.block height block handleReorgs).Valid env process)
    (safe : DecimalsSafe env process (.block height block handleReorgs))
    (parsing : Parser.parseBlock env process.db height block (spentPrevouts env process.db block)
      (loadedCache env process.db block) = .ok parsed)
    {past future : List TokenAction} {state : Processing}
    (split : past ++ future = parsed.cache.tokenActions)
    (ran : past.foldlM (Processing.step env) {
      cache := { parsed.cache.loadTokensData env process.db with tokenActions := [] }
      holders := process.server.holders } = .ok state) :
    DigitsRunning env process.db state.cache state.history := by
  have preloadable := preloadable_parsed parsing sound.holds.2 sound.placed
    (fun txid own => valid.2.txids_disjoint own)
  have along := safe parsed parsing
  rw [← split] at along
  exact (processing_digits counts preloadable (digits_start sound.holds.1 parsing)
    (deploysEmpty_parsed parsing) split along.left ran).2

theorem digits_handled (counts : env.CountsDecimals) (sound : Sound (DigitsFiled env) process)
    {handleReorgs : Bool} (valid : (Event.block height block handleReorgs).Valid env process)
    (safe : DecimalsSafe env process (.block height block handleReorgs))
    (result : HandledBlock env process.server height block handled) :
    DigitsLedger env (applyAll handled.processed process.db) := by
  cases tokens_handled result with
  | kept tokens accounts transfers => exact sound.holds.1.congr tokens accounts transfers
  | processed parsing processing tokens accounts transfers =>
      exact digits_written sound.holds.1
        (digits_processed counts sound valid safe parsing (List.append_nil _) processing) tokens
        accounts transfers

end Block

/-- In every run whose actions meet no defect, every amount that is stored fits its token, and so
do those at every stage of the next block and in its events; whole balances can be transferred. -/
theorem amounts_representable {env : Env} {process : Process} (counts : env.CountsDecimals)
    (reached : Reachable env (DecimalsSafe env) process) :
    DigitsLedger env process.db ∧
    (∀ key account token, process.db.addressTokenToBalance.get key = some account →
      process.db.tokenToMeta.get (env.lower key.token) = some token →
      env.scale account.balance ≤ token.proto.dec) ∧
    ∀ height block handleReorgs,
      (Event.block height block handleReorgs).Valid env process →
      DecimalsSafe env process (.block height block handleReorgs) →
      ∀ parsed, Parser.parseBlock env process.db height block
          (spentPrevouts env process.db block) (loadedCache env process.db block) = .ok parsed →
      ∀ past future state, past ++ future = parsed.cache.tokenActions →
      past.foldlM (Processing.step env) {
        cache := { parsed.cache.loadTokensData env process.db with tokenActions := [] }
        holders := process.server.holders } = .ok state →
      DigitsRunning env process.db state.cache state.history := by
  have sound : Sound (DigitsFiled env) process := by
    refine reachable_sound digits_ofLedger digits_empty ?_ reached
    intro process height new handleReorgs handled sound valid safe handling
    have result := handleBlock_handled handling
    exact ⟨digits_handled counts sound valid safe result,
      filed_handled result sound.holds.2 sound.placed fun txid own => valid.2.txids_disjoint own⟩
  refine ⟨sound.holds.1, ?_, ?_⟩
  · intro key account token filed found
    obtain ⟨⟨same, foundSame, free⟩, _⟩ := sound.holds.1.accounts key account filed
    rw [found] at foundSame
    cases foundSame
    exact (counts _ _).mpr free
  · intro height block handleReorgs valid safe parsed parsing past future state split ran
    exact digits_processed counts sound valid safe parsing split ran

theorem decimalsOf_le (amt dec : Nat) : Env.decimalsOf amt ≤ dec ↔ WithinDigits dec amt := by
  have zeros : ∀ count, count ∈ (List.range 19).filter (fun zeros => amt % 10 ^ zeros = 0) ↔
      count < 19 ∧ 10 ^ count ∣ amt := by
    intro count
    rw [List.mem_filter, List.mem_range, decide_eq_true_eq, Nat.dvd_iff_mod_eq_zero]
  have sorted : ((List.range 19).filter fun zeros => amt % 10 ^ zeros = 0).Pairwise (· < ·) :=
    List.pairwise_lt_range.filter _
  rw [Env.decimalsOf, WithinDigits]
  rcases List.eq_nil_or_concat ((List.range 19).filter fun zeros => amt % 10 ^ zeros = 0) with
    none | ⟨fewer, most, shape⟩
  · have first := (zeros 0).mpr ⟨by omega, by simp⟩
    rw [none] at first
    cases first
  · rw [List.concat_eq_append] at shape
    rw [shape] at zeros sorted ⊢
    obtain ⟨bound, divides⟩ := (zeros most).mp (by simp)
    rw [List.getLastD_concat]
    constructor
    · intro least
      exact (Nat.pow_dvd_pow 10 (by omega)).trans divides
    · intro fits
      rcases List.mem_append.mp ((zeros (18 - dec)).mpr ⟨by omega, fits⟩) with earlier | last
      · have less := (List.pairwise_append.mp sorted).2.2 _ earlier most (by simp)
        omega
      · have same := List.mem_singleton.mp last
        omega

namespace Sample

def decimalAmount (text : Bytes) : Except String Nat := do
  let whole ← Env.wholeAmount (text.takeWhile (· != 0x2e))
  let decimals := (text.dropWhile (· != 0x2e)).drop 1
  if decimals = [] then .ok whole
  else do
    let fraction ← Env.wholeAmount decimals
    .ok (whole + fraction / 10 ^ decimals.length)

def deployWhole (max : String) : Bytes × RawBrc4 :=
  (json "deploy" "wojak" "max" max, .deploy .wjk20 (text "wojak") (text max) none (some 0))

def decimalEnv : Env := { Env.ofRecords .wojakcoin .bellscoin [
    deployWhole "3", deployWhole "1.5", mint "wojak" "1", mint "wojak" "2"] with
  fixed128FromStr := decimalAmount }

def mintTwice (max amt : String) : List Event := [
  .block 1 payWojak true,
  .block 2 (block 102 [coinbase 2 [pay sender 50], {
    hash := 3
    inputs := [spend 1 0 [deployWhole max, mint "wojak" amt, mint "wojak" amt]]
    outputs := [pay sender 50] }]) true]

end Sample

theorem mintTwice_representable :
    ∃ process, Reachable Sample.decimalEnv (DecimalsSafe Sample.decimalEnv) process ∧
      (process.db.tokenToMeta.get (Sample.decimalEnv.lower Sample.wojak)).map
        (fun token => token.proto.supply) = some (3 * 10 ^ 18) ∧
      DigitsLedger Sample.decimalEnv process.db := by
  obtain ⟨process, reached, supplied⟩ : ∃ process,
      Reachable Sample.decimalEnv (DecimalsSafe Sample.decimalEnv) process ∧
      (process.db.tokenToMeta.get (Sample.decimalEnv.lower Sample.wojak)).map
        (fun token => token.proto.supply) = some (3 * 10 ^ 18) :=
    replay_any (Sample.mintTwice "3" "2") (by decide +kernel)
  have counts : Sample.decimalEnv.CountsDecimals := decimalsOf_le
  exact ⟨process, reached, supplied, (amounts_representable counts reached).1⟩

/-- Of a token without decimals and a maximum of one and a half, a half is minted. -/
theorem mintTwice_halved :
    Sample.decimalEnv.CountsDecimals ∧
      ∃ process, Reachable Sample.decimalEnv (fun _ _ => True) process ∧
        ¬ DigitsLedger Sample.decimalEnv process.db := by
  refine ⟨decimalsOf_le, ?_⟩
  obtain ⟨process, reached, halved⟩ : ∃ process,
      Reachable Sample.decimalEnv (fun _ _ => True) process ∧
      (process.db.tokenToMeta.get (Sample.decimalEnv.lower Sample.wojak)).any (fun token =>
        !decide (WithinDigits token.proto.dec token.proto.supply)) = true :=
    replay_any (Sample.mintTwice "1.5" "1") (by decide +kernel)
  refine ⟨process, reached, fun ledger => ?_⟩
  obtain ⟨token, found, broken⟩ := (Option.any_eq_true _ _).mp halved
  rw [decide_eq_true (ledger.supplies _ token found)] at broken
  cases broken

end WjkIndexer
