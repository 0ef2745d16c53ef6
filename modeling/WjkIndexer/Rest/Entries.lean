import WjkIndexer.Indexer.Heights
import WjkIndexer.Server.Events

/-!
Entries of the history as the endpoints show them: with the texts of their addresses and with the
time of their block.
-/

namespace WjkIndexer

open FiniteTable

namespace Rest

/-- An entry as it is shown. Its key and its action have the fields of those of an event. -/
structure History where
  addressToken : AddressTokenIdEvent
  height : Nat
  action : TokenHistoryEvent

structure AddressHistory where
  history : History
  created : Nat

/-- An entry with the texts of its addresses. -/
def History.shown (address : FullHash → String) (entry : HistoryEntry) : History where
  addressToken := {
    address := address entry.1.address
    token := entry.1.token.rest
    id := entry.1.id }
  height := entry.2.height
  action := entry.2.action.intoEvent address

def History.new (env : Env) (db : DB) (entry : HistoryEntry) : History :=
  .shown (env.addressText (db.loadAddresses [entry]).get) entry

def AddressHistory.new (env : Env) (db : DB) (entry : HistoryEntry) : Option AddressHistory := do
  let info ← db.blockInfo.get entry.2.height
  some { history := .new env db entry, created := info.created }

theorem History.shown_congr {first second : FullHash → String} {entry : HistoryEntry}
    (own : first entry.1.address = second entry.1.address)
    (other : ∀ address ∈ entry.2.action.address, first address = second address) :
    History.shown first entry = .shown second entry := by
  obtain ⟨key, height, action⟩ := entry
  simp only [History.shown, own]
  congr 1
  cases action with
  | deploy | mint | deployTransfer | sendReceive => rfl
  | send amt recipient => simp only [TokenHistoryDB.intoEvent, other recipient rfl]
  | receive amt sender => simp only [TokenHistoryDB.intoEvent, other sender rfl]

theorem History.new_eq (env : Env) (db : DB) (entry : HistoryEntry) :
    History.new env db entry = .shown (env.addressText db.fullhashToAddress.get) entry := by
  have loaded : ∀ address ∈ entry.1.address :: entry.2.action.address.toList,
      (db.loadAddresses [entry]).get address = db.fullhashToAddress.get address := by
    intro address needed
    rw [DB.loadAddresses, Table.get_restrict, if_pos]
    simpa using needed
  refine History.shown_congr ?_ ?_
  · rw [Env.addressText, loaded _ List.mem_cons_self]
    rfl
  · intro address needed
    rw [Env.addressText, loaded _ (List.mem_cons_of_mem _ (Option.mem_toList.mpr needed))]
    rfl

end Rest

/-- In every run each entry of the history belongs to an applied block, and is shown with the time
of this block. The events of a height are the entries of its block, in the order of their ids. -/
theorem history_dated {env : Env} {process : Process}
    (reached : Reachable env (fun _ _ => True) process) :
    (∀ key value, process.db.addressTokenToHistory.get key = some value →
      ∃ block, (value.height, block) ∈ process.chain ∧
        Rest.AddressHistory.new env process.db (key, value) = some {
          history := .shown (env.addressText process.db.fullhashToAddress.get) (key, value)
          created := block.header.timestamp }) ∧
    ∀ height,
      (∀ key, key ∈ (process.db.blockEvents.get height).getD [] ↔
        ∃ value, process.db.addressTokenToHistory.get key = some value ∧ value.height = height) ∧
      ((process.db.blockEvents.get height).getD []).Pairwise
        fun earlier later => earlier.id < later.id := by
  have known := (reachable_byHeight reached).holds
  constructor
  · intro key value stored
    obtain ⟨begun, block, applied⟩ := known.applied key value stored
    have info := (known.infos value.height _).mpr ⟨begun, block, applied, rfl⟩
    refine ⟨block, applied, ?_⟩
    simp only [Rest.AddressHistory.new, info, Rest.History.new_eq]
    rfl
  · exact fun height => ⟨known.events height, known.ascending height⟩

theorem wojak_dated : ∃ process, Reachable Sample.env (fun _ _ => True) process ∧
    process.db.addressTokenToHistory.keys ≠ ∅ ∧
    ∀ key value, process.db.addressTokenToHistory.get key = some value →
      ∃ block, (value.height, block) ∈ process.chain ∧
        (Rest.AddressHistory.new Sample.env process.db (key, value)).map
          Rest.AddressHistory.created = some block.header.timestamp := by
  obtain ⟨process, reached, told⟩ : ∃ process, Reachable Sample.env (fun _ _ => True) process ∧
      process.db.addressTokenToHistory.keys ≠ ∅ :=
    replay_any (Sample.lockWojak ++ [.restore 1, .block 2 { Sample.inscribeWojak with
      header := { Sample.inscribeWojak.header with timestamp := 9 } } true]) (by decide +kernel)
  refine ⟨process, reached, told, ?_⟩
  intro key value stored
  obtain ⟨block, applied, shown⟩ := (history_dated reached).1 key value stored
  exact ⟨block, applied, by rw [shown]; rfl⟩

end WjkIndexer
