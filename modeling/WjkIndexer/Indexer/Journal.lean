import WjkIndexer.Indexer.HistoryIds
import WjkIndexer.Library.Bytes
import WjkIndexer.Library.Reaches
import WjkIndexer.Reorg.Visible

/-!
The proofs of history as commitments: the proof of a block fixes the text of its entries and, by
the proof before it, the texts of all blocks below.
-/

namespace WjkIndexer

open FiniteTable Machine

/-- What the proof of a block is computed from: the proof before it and the text of its entries. -/
structure ProofInput where
  prev : Hash256
  text : Bytes
  deriving DecidableEq

/-- The text of the entries of a block; a block without entries has the text `null`. -/
def historyText (env : Env) (history : List (AddressTokenIdDB × HistoryValue))
    (addresses : FullHash → Option String) : Bytes :=
  if history = [] then [0x6e, 0x75, 0x6c, 0x6c]
  else history.flatMap fun entry => env.historyJson entry (env.addressText addresses)

namespace ProofInput

def link (env : Env) (input : ProofInput) : Bytes :=
  hashBytes input.prev ++ hashBytes (env.sha256 input.text)

def proof (env : Env) (input : ProofInput) : Hash256 := env.sha256 (input.link env)

def messages (env : Env) (input : ProofInput) : Finset Bytes := {input.text, input.link env}

def next (env : Env) (server : Server) (height : Nat) (block : Block) : ProofInput where
  prev := (server.db.proofOfHistory.get (height - 1)).getD env.defaultHash
  text := historyText env
    (historyEntries height (server.db.lastHistoryId.getD 0) (historyOf env server height block))
    fun hash => ((blockAddresses env block).get hash).or (server.db.fullhashToAddress.get hash)

end ProofInput

theorem hashBytes_eq (hash : Hash256) : hashBytes hash = ByteString.beBytes 32 hash.toNat := by
  have digits : ∀ width number, (List.range width).map
      (fun place => UInt8.ofNat (number / 256 ^ (width - 1 - place) % 256)) =
      ByteString.beBytes width number := by
    intro width number
    induction width with
    | zero => rfl
    | succ width ih =>
        have first : UInt8.ofNat (number / 256 ^ width % 256) =
            UInt8.ofNat (number / 256 ^ width) := by
          simp [← UInt8.toNat_inj]
        rw [List.range_succ_eq_map, List.map_cons, List.map_map, ByteString.beBytes, ← ih]
        refine congrArg₂ List.cons (by simpa using first) (List.map_congr_left ?_)
        intro place _
        rw [Function.comp_apply, show width + 1 - 1 - place.succ = width - 1 - place by omega]
  exact digits 32 hash.toNat

theorem hashBytes_injective : Function.Injective hashBytes := by
  intro first second same
  rw [hashBytes_eq, hashBytes_eq] at same
  exact BitVec.eq_of_toNat_eq (@ByteString.beBytes_inj 32 _ _ first.isLt second.isLt same)

theorem generateHistoryHash_eq (env : Env) (prev : Hash256)
    (history : List (AddressTokenIdDB × HistoryValue)) (addresses : FullHash → Option String) :
    generateHistoryHash env prev history addresses =
      ProofInput.proof env ⟨prev, historyText env history addresses⟩ := by
  unfold generateHistoryHash ProofInput.proof ProofInput.link historyText
  by_cases none : history = []
  · simp only [none, if_true]
    rfl
  · simp only [none, if_false]

theorem ProofInput.proof_inj {env : Env} {first second : ProofInput} {hashed : Finset Bytes}
    (apart : Set.InjOn env.sha256 hashed) (own : first.messages env ⊆ hashed)
    (other : second.messages env ⊆ hashed) (same : first.proof env = second.proof env) :
    first = second := by
  have links : first.link env = second.link env :=
    apart (own (by simp [messages])) (other (by simp [messages])) same
  obtain ⟨prevs, digests⟩ := List.append_inj links (by simp [hashBytes])
  have texts : first.text = second.text :=
    apart (own (by simp [messages])) (other (by simp [messages])) (hashBytes_injective digests)
  obtain ⟨prev, text⟩ := first
  obtain ⟨otherPrev, otherText⟩ := second
  rw [mk.injEq]
  exact ⟨hashBytes_injective prevs, texts⟩

theorem proof_handled {env : Env} {server : Server} {height : Nat} {block : Block}
    {handled : Handled} (result : HandledBlock env server height block handled)
    (begun : env.startHeight ≤ height) :
    (applyAll handled.processed server.db).proofOfHistory =
      server.db.proofOfHistory.set height ((ProofInput.next env server height block).proof env) := by
  cases result with
  | early before => omega
  | empty _ alone =>
      rw [ProofInput.next, historyOf, if_pos (Or.inr alone), ← generateHistoryHash_eq]
      rfl
  | full _ several parsing processing =>
      rw [ProofInput.next, historyOf, if_neg (by omega), parsing]
      dsimp only
      rw [processing, ← generateHistoryHash_eq]
      rfl

theorem proof_early {env : Env} {server : Server} {height : Nat} {block : Block}
    {handled : Handled} (result : HandledBlock env server height block handled)
    (early : height < env.startHeight) :
    (applyAll handled.processed server.db).proofOfHistory = server.db.proofOfHistory := by
  cases result with
  | early => rfl
  | empty begun | full begun => omega

structure Journal where
  process : Process := {}
  inputs : Table Nat ProofInput := ∅

namespace Journal

def step (env : Env) (journal : Journal) (event : Event) : Except HandleError Journal := do
  let process ← journal.process.step env event
  .ok {
    process
    inputs := match event with
      | .block height new _ =>
          if height < env.startHeight then journal.inputs
          else journal.inputs.set height (.next env journal.process.server height new)
      | .restore _ => journal.inputs
      | .restart => journal.inputs }

def Permitted (env : Env) (journal : Journal) (event : Event) : Prop :=
  event.Valid env journal.process

instance (env : Env) (journal : Journal) (event : Event) :
    Decidable (Permitted env journal event) :=
  inferInstanceAs (Decidable (event.Valid env journal.process))

abbrev Reached (env : Env) (journal : Journal) : Prop :=
  Reaches (Journal.step env) (Permitted env) {} journal

def heights (journal : Journal) : List Nat := journal.process.chain.map Prod.fst

def messages (env : Env) (journal : Journal) : Finset Bytes :=
  journal.inputs.keys.biUnion fun height =>
    (journal.inputs.get height).toFinset.biUnion (ProofInput.messages env)

theorem mem_messages {env : Env} {journal : Journal} {height : Nat} {input : ProofInput}
    (found : journal.inputs.get height = some input) :
    input.messages env ⊆ journal.messages env := by
  intro message listed
  rw [messages, Finset.mem_biUnion]
  refine ⟨height, Table.mem_keys_iff.mpr ⟨input, found⟩, ?_⟩
  rw [found, Finset.mem_biUnion]
  exact ⟨input, by simp, listed⟩

structure Chained (env : Env) (journal : Journal) : Prop where
  linked : journal.process.chain.Linked
  proofs : ∀ height ∈ journal.heights, env.startHeight ≤ height → ∃ input,
    journal.inputs.get height = some input ∧
      journal.process.db.proofOfHistory.get height = some (input.proof env)
  prev : ∀ height ∈ journal.heights, height + 1 ∈ journal.heights → env.startHeight ≤ height →
    ∀ input, journal.inputs.get (height + 1) = some input →
      journal.process.db.proofOfHistory.get height = some input.prev

theorem step_ok {env : Env} {journal next : Journal} {event : Event} :
    journal.step env event = .ok next ↔
      journal.process.step env event = .ok next.process ∧
        next.inputs = match event with
          | .block height new _ =>
              if height < env.startHeight then journal.inputs
              else journal.inputs.set height (.next env journal.process.server height new)
          | .restore _ => journal.inputs
          | .restart => journal.inputs := by
  simp only [step, bind_ok]
  constructor
  · rintro ⟨process, stepped, same⟩
    cases same
    exact ⟨stepped, rfl⟩
  · rintro ⟨stepped, inputs⟩
    refine ⟨next.process, stepped, ?_⟩
    rw [← inputs]

theorem Reached.process {env : Env} {journal : Journal} (reached : journal.Reached env) :
    Reachable env (fun _ _ => True) journal.process := by
  induction reached with
  | start => exact .start
  | step _ valid stepped run => exact run.step valid trivial (step_ok.mp stepped).1

theorem Reached.sound {env : Env} {journal : Journal} (reached : journal.Reached env) :
    Sound (fun _ _ => True) journal.process :=
  reachable_sound always_ofLedger trivial (fun _ _ _ _ _ _ _ _ _ => trivial) reached.process

namespace Chained

variable {env : Env} {journal next : Journal}

theorem shorter (chained : Chained env journal)
    (suffix : next.process.chain <:+ journal.process.chain)
    (proofs : next.process.db.proofOfHistory = journal.process.db.proofOfHistory)
    (inputs : next.inputs = journal.inputs) : Chained env next := by
  have fewer : ∀ height ∈ next.heights, height ∈ journal.heights := fun height listed =>
    (suffix.sublist.map Prod.fst).subset listed
  refine ⟨?_, ?_, ?_⟩
  · exact chained.linked.suffix suffix
  · intro height listed begun
    rw [inputs, proofs]
    exact chained.proofs height (fewer height listed) begun
  · intro height listed above begun input found
    rw [inputs] at found
    rw [proofs]
    exact chained.prev height (fewer height listed) (fewer _ above) begun input found

theorem lower (chained : Chained env journal) {height : Nat}
    (follows : journal.process.chain.Follows height) : ∀ other ∈ journal.heights, other < height := by
  intro other listed
  obtain ⟨entry, member, rfl⟩ := List.mem_map.mp listed
  obtain ⟨place, found⟩ := List.mem_iff_getElem?.mp member
  cases shape : journal.process.chain with
  | nil =>
      rw [shape] at member
      cases member
  | cons top rest =>
      have head : journal.process.chain.head? = some top := by rw [shape]; rfl
      have order := chained.linked.height head found
      have above := follows top head
      omega

theorem block (chained : Chained env journal) {height : Nat} {new : Block} {handled : Handled}
    (follows : journal.process.chain.Follows height)
    (result : HandledBlock env journal.process.server height new handled)
    (db : next.process.db = applyAll handled.processed journal.process.db)
    (chain : next.process.chain = (height, new) :: journal.process.chain)
    (inputs : next.inputs = if height < env.startHeight then journal.inputs
      else journal.inputs.set height (.next env journal.process.server height new)) :
    Chained env next := by
  have lower := chained.lower follows
  have heights : next.heights = height :: journal.heights := by
    rw [Journal.heights, chain]
    rfl
  refine ⟨?_, ?_, ?_⟩
  · rw [chain]
    exact chained.linked.cons follows new
  · intro other listed begun
    rw [heights, List.mem_cons] at listed
    by_cases early : height < env.startHeight
    · rcases listed with rfl | old
      · exact absurd early (Nat.not_lt.mpr begun)
      · have below := lower other old
        omega
    · rw [inputs, if_neg early, db,
        show journal.process.db = journal.process.server.db from rfl,
        proof_handled result (Nat.le_of_not_lt early)]
      rcases listed with rfl | old
      · exact ⟨_, Table.get_set_self _ _ _, Table.get_set_self _ _ _⟩
      · have below := lower other old
        rw [Table.get_set_ne _ _ (by omega), Table.get_set_ne _ _ (by omega)]
        exact chained.proofs other old begun
  · intro other listed above begun input found
    rw [heights, List.mem_cons] at listed above
    have old : other ∈ journal.heights := by
      rcases listed with rfl | old
      · rcases above with impossible | high
        · omega
        · have order := lower _ high
          omega
      · exact old
    have below := lower other old
    have late : ¬height < env.startHeight := by omega
    rw [inputs, if_neg late] at found
    rw [db, show journal.process.db = journal.process.server.db from rfl,
      proof_handled result (Nat.le_of_not_lt late), Table.get_set_ne _ _ (by omega)]
    rcases above with rfl | high
    · rw [Table.get_set_self, Option.some.injEq] at found
      subst found
      obtain ⟨under, _, stored⟩ := chained.proofs other old begun
      have same : journal.process.server.db.proofOfHistory.get other = some (under.proof env) :=
        stored
      rw [ProofInput.next, Nat.add_sub_cancel, same]
      rfl
    · have order := lower _ high
      rw [Table.get_set_ne _ _ (by omega)] at found
      exact chained.prev other old high begun input found

end Chained

theorem Reached.chained {env : Env} {journal : Journal} (reached : journal.Reached env) :
    Chained env journal := by
  induction reached with
  | start => exact ⟨List.isChain_nil, by simp [heights], by simp [heights]⟩
  | @step journal next event reached valid stepped chained =>
      have sound := Reached.sound reached
      obtain ⟨processed, inputs⟩ := step_ok.mp stepped
      cases event with
      | block height new handleReorgs =>
          obtain ⟨handled, handling, server, chain, _⟩ :=
            step_block processed (sound.below valid.1)
          refine chained.block valid.1 (handleBlock_handled handling) ?_ chain inputs
          rw [Process.db, server]
      | restore target =>
          have restored := Except.ok.inj processed
          refine chained.shorter ?_ ?_ inputs
          · rw [← restored]
            exact List.drop_suffix _ _
          · rw [← restored]
            exact restoreBlocks_proofs target _ _
      | restart =>
          have restarted := Except.ok.inj processed
          refine chained.shorter ?_ ?_ inputs
          · rw [← restarted]
          · rw [← restarted]
            rfl

theorem Chained.between {env : Env} {journal : Journal} (chained : Chained env journal)
    {low high height : Nat} (lower : low ∈ journal.heights) (upper : high ∈ journal.heights)
    (above : low ≤ height) (below : height ≤ high) : height ∈ journal.heights := by
  obtain ⟨bottom, bottomIn, rfl⟩ := List.mem_map.mp lower
  obtain ⟨peak, peakIn, rfl⟩ := List.mem_map.mp upper
  obtain ⟨place, found⟩ := List.mem_iff_getElem?.mp bottomIn
  obtain ⟨depth, known⟩ := List.mem_iff_getElem?.mp peakIn
  cases shape : journal.process.chain with
  | nil =>
      rw [shape] at bottomIn
      cases bottomIn
  | cons top rest =>
      have head : journal.process.chain.head? = some top := by rw [shape]; rfl
      have bottomPlace := chained.linked.height head found
      have peakPlace := chained.linked.height head known
      have short := (List.getElem?_eq_some_iff.mp found).1
      obtain ⟨entry, listed⟩ : ∃ entry, journal.process.chain[top.1 - height]? = some entry :=
        ⟨_, List.getElem?_eq_getElem (by omega)⟩
      have place := chained.linked.height head listed
      have same : entry.1 = height := by omega
      exact same ▸ List.mem_map_of_mem (List.mem_of_getElem? listed)

end Journal

end WjkIndexer
