import WjkIndexer.Server.Events

/-!
The delivery of events: the thread of the indexer, the thread that turns entries of the history
into events, and the tasks of the clients, which take steps in any order.
-/

namespace WjkIndexer

open FiniteTable Machine Blk

inductive Output where
  | announce (event : ServerEvent)
  | handOver (history : List HistoryEntry)

/-- Where the thread of the indexer is: before and after its look at the token, with an event whose
block is to be handled, or at its end. -/
inductive Indexing where
  | idle
  | ready
  | pending (event : BlockEvent)
  | stopped

inductive Sending where
  | collecting (events : List HistoryEntry)
  | waiting
  | resolving (events : List HistoryEntry)
  | sending (addresses : Table FullHash String) (events : List HistoryEntry)
  | exited

def Sending.held : Sending → List HistoryEntry
  | collecting events => events
  | resolving events => events
  | sending _ events => events
  | waiting => []
  | exited => []

inductive Polling where
  | idle
  | ready
  | left
  deriving DecidableEq, Repr

/-- The receiving ends of the channels: of the queue of entries of the history, and of the events
that are broadcast. -/
structure Channels where
  rawEvents : List (List HistoryEntry) → Option (List HistoryEntry × List (List HistoryEntry))
  events : List ServerEvent → Nat → Broadcast.Received ServerEvent

structure Channels.Documented (channels : Channels) (capacity : Nat) : Prop where
  rawEvents : HandsOver channels.rawEvents
  events : Broadcast.Keeps capacity channels.events

structure Client where
  choice : Choice
  window : Broadcast.Window
  polling : Polling := .idle
  received : List ServerEvent := []

structure Service where
  channel : Broadcast ServerEvent := {}
  loop : Loop := {}
  indexing : Indexing := .idle
  todo : List Output := []
  cancelled : Bool := false
  queue : List (List HistoryEntry) := []
  sending : Sending := .collecting []
  clients : Table Nat Client := ∅
  handed : List HistoryEntry := []
  missed : List HistoryEntry := []

inductive Action where
  -- the indexer looks at the token
  | look
  -- the indexer finds no event, or no more of them
  | wait
  | finish
  | receive (event : BlockEvent)
  | handle
  | output
  | cancel
  -- the turns of the event sender
  | collect
  | glance
  | resolve
  | send
  -- the turns of the clients
  | subscribe (client : Nat) (choice : Choice)
  | check (client : Nat)
  | poll (client : Nat)
  | hangUp (client : Nat)

inductive Blocked where
  -- the thread is elsewhere
  | elsewhere
  -- `Failed to send raw event`
  | failedToSend
  deriving DecidableEq, Repr

namespace Service

variable (env : Env) (channels : Channels) (service : Service)

def reorgOutputs (event : BlockEvent) : List Output :=
  if 0 < event.reorgLen then
    [.announce (.reorg (asU32 event.reorgLen) (asU32 event.id.height))]
  else []

def blockOutputs (loop : Loop) (event : BlockEvent) : List Output :=
  match handleBlock env loop.process.server (asU32 event.id.height) event.block with
  | .error _ => []
  | .ok handled =>
      (announcedEvents env loop.process.db (asU32 event.id.height) event.block handled).map
          .announce ++
        [.handOver handled.history]

def announce (event : ServerEvent) : Service :=
  { service with channel := service.channel.send event }

def receive (event : BlockEvent) : Service :=
  match service.loop.prepare event with
  | .error _ => { service with indexing := .stopped, todo := reorgOutputs event }
  | .ok loop => { service with loop, indexing := .pending event, todo := reorgOutputs event }

def handle (event : BlockEvent) : Service :=
  match service.loop.handleEvent env event with
  | .error _ => { service with indexing := .stopped }
  | .ok loop =>
      { service with loop, indexing := .idle, todo := blockOutputs env service.loop event }

def output : Output → Except Blocked Service
  | .announce event => .ok (service.announce event)
  | .handOver history =>
      match service.sending with
      | .exited =>
          if service.cancelled then .ok { service with missed := service.missed ++ history }
          else .error .failedToSend
      | _ => .ok { service with
          queue := service.queue ++ [history]
          handed := service.handed ++ history }

def collect (events : List HistoryEntry) : Service :=
  match channels.rawEvents service.queue with
  | some (history, queue) => { service with queue, sending := .collecting (events ++ history) }
  | none => { service with sending := if events = [] then .waiting else .resolving events }

def poll (client : Client) : Client :=
  match channels.events service.channel.log client.window.next with
  | .value event =>
      { client with
        window := { client.window with next := client.window.next + 1 }
        polling := .idle
        received :=
          if client.choice.accepts env event then client.received ++ [event]
          else client.received }
  | .lagged _ => { client with polling := .left }
  | .empty => { client with polling := .idle }

def setClient (id : Nat) (client : Client) : Service :=
  { service with clients := service.clients.set id client }

def step : Action → Except Blocked Service
  | .look =>
      match service.indexing, service.todo with
      | .idle, [] => .ok {
          service with indexing := if service.cancelled then .stopped else .ready }
      | _, _ => .error .elsewhere
  | .wait =>
      match service.indexing with
      | .ready => .ok { service with indexing := .idle }
      | _ => .error .elsewhere
  | .finish =>
      match service.indexing with
      | .ready => .ok { service with indexing := .stopped }
      | _ => .error .elsewhere
  | .receive event =>
      match service.indexing, service.todo with
      | .ready, [] => .ok (service.receive event)
      | _, _ => .error .elsewhere
  | .handle =>
      match service.indexing, service.todo with
      | .pending event, [] => .ok (service.handle env event)
      | _, _ => .error .elsewhere
  | .output =>
      match service.todo with
      | [] => .error .elsewhere
      | next :: todo => { service with todo }.output next
  | .cancel => .ok { service with cancelled := true }
  | .collect =>
      match service.sending with
      | .collecting events => .ok (service.collect channels events)
      | _ => .error .elsewhere
  | .glance =>
      match service.sending with
      | .waiting => .ok {
          service with sending := if service.cancelled then .exited else .collecting [] }
      | _ => .error .elsewhere
  | .resolve =>
      match service.sending with
      | .resolving events => .ok { service with
          sending := .sending (service.loop.process.db.loadAddresses events) events }
      | _ => .error .elsewhere
  | .send =>
      match service.sending with
      | .sending _ [] => .ok { service with sending := .collecting [] }
      | .sending addresses (entry :: rest) =>
          .ok { service.announce (newHistoryEvent env addresses entry) with
            sending := .sending addresses rest }
      | _ => .error .elsewhere
  | .subscribe id choice =>
      match service.clients.get id with
      | some _ => .error .elsewhere
      | none => .ok (service.setClient id { choice, window := service.channel.subscribe })
  | .check id =>
      match service.clients.get id with
      | some client =>
          if client.polling = .idle then
            .ok (service.setClient id {
              client with polling := if service.cancelled then .left else .ready })
          else .error .elsewhere
      | none => .error .elsewhere
  | .poll id =>
      match service.clients.get id with
      | some client =>
          if client.polling = .ready then
            .ok (service.setClient id (service.poll env channels client))
          else .error .elsewhere
      | none => .error .elsewhere
  | .hangUp id =>
      match service.clients.get id with
      | some client => .ok (service.setClient id { client with polling := .left })
      | none => .error .elsewhere

/-! What a step can do. -/

def Ordered : (Nat → Prop) → List Output → Prop
  | _, [] => True
  | _, .announce (.newHistory ..) :: _ => False
  | known, .announce (.reorg ..) :: rest => Ordered known rest
  | known, .announce (.newBlock height ..) :: rest =>
      Ordered (fun other => known other ∨ other = height) rest
  | known, .handOver history :: rest =>
      (∀ entry ∈ history, known entry.2.height) ∧ Ordered known rest

inductive Turn (env : Env) (channels : Channels) (service : Service) : Service → Prop where
  | indexer {indexing : Indexing} {loop : Loop} {todo : List Output} {cancelled : Bool}
      (kept : service.cancelled = true → cancelled = true)
      (outputs : todo = service.todo ∨ service.todo = [] ∧ Ordered (fun _ => False) todo) :
      Turn env channels service { service with indexing, loop, todo, cancelled }
  | announce {event : ServerEvent} {todo : List Output}
      (next : service.todo = .announce event :: todo) :
      Turn env channels service { service.announce event with todo }
  | handOver {history : List HistoryEntry} {todo : List Output}
      (next : service.todo = .handOver history :: todo) (there : service.sending ≠ .exited) :
      Turn env channels service { service with
        todo, queue := service.queue ++ [history], handed := service.handed ++ history }
  | miss {history : List HistoryEntry} {todo : List Output}
      (next : service.todo = .handOver history :: todo) (gone : service.sending = .exited) :
      Turn env channels service { service with todo, missed := service.missed ++ history }
  | take {events history : List HistoryEntry} {queue : List (List HistoryEntry)}
      (collecting : service.sending = .collecting events)
      (next : channels.rawEvents service.queue = some (history, queue)) :
      Turn env channels service { service with queue, sending := .collecting (events ++ history) }
  | sender {sending : Sending} (held : sending.held = service.sending.held)
      (there : service.sending ≠ .exited)
      (exits : sending = .exited → service.cancelled = true) :
      Turn env channels service { service with sending }
  | send {addresses : Table FullHash String} {entry : HistoryEntry} {rest : List HistoryEntry}
      (sending : service.sending = .sending addresses (entry :: rest)) :
      Turn env channels service { service.announce (newHistoryEvent env addresses entry) with
        sending := .sending addresses rest }
  | subscribe {id : Nat} {choice : Choice} (new : service.clients.get id = none) :
      Turn env channels service
        (service.setClient id { choice, window := service.channel.subscribe })
  | turnClient {id : Nat} {client : Client} {polling : Polling}
      (known : service.clients.get id = some client) :
      Turn env channels service (service.setClient id { client with polling })
  | poll {id : Nat} {client : Client} (known : service.clients.get id = some client) :
      Turn env channels service (service.setClient id (service.poll env channels client))

variable {env channels service} {next : Service}

theorem ordered_reorgOutputs (event : BlockEvent) (known : Nat → Prop) :
    Ordered known (reorgOutputs event) := by
  unfold reorgOutputs
  split <;> trivial

theorem ordered_blockOutputs (loop : Loop) (event : BlockEvent) (known : Nat → Prop) :
    Ordered known (blockOutputs env loop event) := by
  unfold blockOutputs
  split
  · trivial
  · rename_i handled handling
    have told := fun (entry : HistoryEntry) (listed : entry ∈ handled.history) =>
      history_known (handleBlock_handled handling) listed
    unfold announcedEvents at told ⊢
    split at told
    · rename_i early
      rw [if_pos early]
      refine ⟨?_, trivial⟩
      intro entry listed
      obtain ⟨_, _, impossible⟩ := told entry listed
      cases impossible
    · rename_i begun
      rw [if_neg begun]
      refine ⟨?_, trivial⟩
      intro entry listed
      obtain ⟨proof, hash, member⟩ := told entry listed
      rw [List.mem_singleton, ServerEvent.newBlock.injEq] at member
      exact Or.inr member.1

theorem output_turn {todo : List Output} {output : Output} (next : service.todo = output :: todo)
    (exited : service.sending = .exited → service.cancelled = true) :
    ∃ after, ({ service with todo } : Service).output output = .ok after ∧
      Turn env channels service after := by
  cases output with
  | announce event => exact ⟨_, rfl, .announce next⟩
  | handOver history =>
      cases sending : service.sending with
      | exited =>
          refine ⟨_, ?_, .miss next sending⟩
          simp only [output, sending, exited sending, if_true]
      | collecting | waiting | resolving | sending =>
          refine ⟨_, ?_, .handOver next (by simp [sending])⟩
          simp only [output, sending]

theorem step_turn {action : Action} (exited : service.sending = .exited → service.cancelled = true)
    (stepped : service.step env channels action = .ok next) : Turn env channels service next := by
  have same : service.todo = service.todo ∨
      service.todo = [] ∧ Ordered (fun _ => False) service.todo := Or.inl rfl
  cases action with
  | look =>
      simp only [step] at stepped
      split at stepped <;> cases stepped
      exact @Turn.indexer env channels service _ service.loop _ _ (fun cancelled => cancelled) same
  | wait | finish =>
      simp only [step] at stepped
      split at stepped <;> cases stepped
      exact @Turn.indexer env channels service _ service.loop _ _ (fun cancelled => cancelled) same
  | receive event =>
      simp only [step] at stepped
      split at stepped <;> cases stepped
      rename_i _ done
      have outputs : reorgOutputs event = service.todo ∨
          service.todo = [] ∧ Ordered (fun _ => False) (reorgOutputs event) :=
        Or.inr ⟨done, ordered_reorgOutputs _ _⟩
      unfold receive
      split
      · exact @Turn.indexer env channels service _ service.loop _ _ (fun cancelled => cancelled)
          outputs
      · exact .indexer (fun cancelled => cancelled) outputs
  | handle =>
      simp only [step] at stepped
      split at stepped <;> cases stepped
      rename_i event _ done
      unfold handle
      split
      · exact @Turn.indexer env channels service _ service.loop _ _ (fun cancelled => cancelled) same
      · exact .indexer (fun cancelled => cancelled) (Or.inr ⟨done, ordered_blockOutputs _ _ _⟩)
  | output =>
      simp only [step] at stepped
      split at stepped
      · cases stepped
      · rename_i output todo shape
        obtain ⟨after, sent, turn⟩ := @output_turn env channels _ _ _ shape exited
        rw [sent] at stepped
        cases stepped
        exact turn
  | cancel =>
      cases stepped
      exact @Turn.indexer env channels service _ service.loop _ _ (fun _ => rfl) same
  | collect =>
      simp only [step] at stepped
      split at stepped <;> cases stepped
      rename_i events collecting
      unfold collect
      split
      · exact .take collecting ‹_›
      · refine .sender ?_ (by simp [collecting]) (fun exits => ?_)
        · rw [collecting]
          split
          · subst events
            rfl
          · rfl
        · split at exits <;> cases exits
  | glance =>
      simp only [step] at stepped
      split at stepped <;> cases stepped
      rename_i waiting
      refine .sender ?_ (by simp [waiting]) (fun exits => ?_)
      · rw [waiting]
        split <;> rfl
      · by_contra running
        rw [if_neg running] at exits
        cases exits
  | resolve =>
      simp only [step] at stepped
      split at stepped <;> cases stepped
      rename_i events resolving
      refine .sender ?_ (by simp [resolving]) (fun exits => nomatch exits)
      rw [resolving]
      rfl
  | send =>
      simp only [step] at stepped
      split at stepped
      · rename_i sending
        cases stepped
        refine .sender ?_ (by simp [sending]) (fun exits => nomatch exits)
        rw [sending]
        rfl
      · rename_i sending
        cases stepped
        exact .send sending
      · cases stepped
  | subscribe id choice =>
      simp only [step] at stepped
      split at stepped <;> cases stepped
      exact .subscribe ‹_›
  | check id =>
      simp only [step] at stepped
      split at stepped
      · rename_i client known
        split at stepped <;> cases stepped
        exact .turnClient known
      · cases stepped
  | poll id =>
      simp only [step] at stepped
      split at stepped
      · rename_i client known
        split at stepped <;> cases stepped
        exact .poll known
      · cases stepped
  | hangUp id =>
      simp only [step] at stepped
      split at stepped <;> cases stepped
      exact .turnClient ‹_›

def isHistory : ServerEvent → Bool
  | .newHistory .. => true
  | _ => false

def Tells (env : Env) (entry : HistoryEntry) (event : ServerEvent) : Prop :=
  ∃ addresses, event = newHistoryEvent env addresses entry

def Known (log : List ServerEvent) (height : Nat) : Prop :=
  ∃ proof hash, .newBlock height proof hash ∈ log

structure Delivers (env : Env) (service : Service) : Prop where
  exited : service.sending = .exited → service.cancelled = true
  missed : service.missed ≠ [] → service.sending = .exited
  told : ∃ delivered,
    service.handed = delivered ++ (service.sending.held ++ service.queue.flatten) ∧
      List.Forall₂ (Tells env) delivered (service.channel.log.filter isHistory)
  ordered : Ordered (Known service.channel.log) service.todo
  waiting : ∀ entry ∈ service.sending.held ++ service.queue.flatten,
    Known service.channel.log entry.2.height
  known : ∀ before addressToken value after,
    service.channel.log = before ++ .newHistory addressToken value :: after →
      Known before value.height

theorem Known.append {log : List ServerEvent} {height : Nat} (known : Known log height)
    (more : List ServerEvent) : Known (log ++ more) height := by
  obtain ⟨proof, hash, member⟩ := known
  exact ⟨proof, hash, List.mem_append_left _ member⟩

theorem Ordered.mono {known other : Nat → Prop} {outputs : List Output}
    (weaker : ∀ height, known height → other height) (ordered : Ordered known outputs) :
    Ordered other outputs := by
  induction outputs generalizing known other with
  | nil => trivial
  | cons output rest ih =>
      cases output with
      | announce event =>
          cases event with
          | newHistory => exact ordered
          | reorg => exact ih weaker ordered
          | newBlock => exact ih (fun height => Or.imp_left (weaker height)) ordered
      | handOver history =>
          exact ⟨fun entry listed => weaker _ (ordered.1 entry listed), ih weaker ordered.2⟩

theorem known_snoc {log : List ServerEvent} {event : ServerEvent}
    (known : ∀ before addressToken value after,
      log = before ++ .newHistory addressToken value :: after → Known before value.height)
    (last : ∀ addressToken value, event = .newHistory addressToken value → Known log value.height) :
    ∀ before addressToken value after,
      log ++ [event] = before ++ .newHistory addressToken value :: after →
        Known before value.height := by
  intro before addressToken value after split
  rcases List.eq_nil_or_concat after with rfl | ⟨init, final, rfl⟩
  · obtain ⟨rfl, same⟩ := List.append_inj' split rfl
    exact last addressToken value (List.cons.inj same).1
  · rw [List.concat_eq_append, ← List.cons_append, ← List.append_assoc] at split
    exact known before addressToken value init (List.append_inj' split rfl).1

namespace Delivers

variable {service next : Service}

theorem announced (delivers : Delivers env service) {event : ServerEvent} {todo : List Output}
    (head : service.todo = .announce event :: todo) :
    Delivers env { service.announce event with todo } := by
  have ordered := delivers.ordered
  rw [head] at ordered
  have plain : isHistory event = false := by
    cases event with
    | newHistory => cases ordered
    | reorg | newBlock => rfl
  obtain ⟨delivered, handed, tells⟩ := delivers.told
  refine {
    exited := delivers.exited
    missed := delivers.missed
    told := ⟨delivered, handed, ?_⟩
    ordered := ?_
    waiting := fun entry listed => (delivers.waiting entry listed).append _
    known := known_snoc delivers.known ?_ }
  · change List.Forall₂ _ _ ((service.channel.log ++ [event]).filter isHistory)
    rw [List.filter_append, List.filter_cons_of_neg (by simp [plain]), List.filter_nil,
      List.append_nil]
    exact tells
  · change Ordered (Known (service.channel.log ++ [event])) todo
    cases event with
    | newHistory => cases ordered
    | reorg => exact ordered.mono fun height known => known.append _
    | newBlock height proof hash =>
        refine ordered.mono fun other => ?_
        rintro (known | rfl)
        · exact known.append _
        · exact ⟨proof, hash, List.mem_append_right _ (List.mem_singleton_self _)⟩
  · rintro addressToken value rfl
    cases plain

theorem sent (delivers : Delivers env service) {addresses : Table FullHash String}
    {entry : HistoryEntry} {rest : List HistoryEntry}
    (sending : service.sending = .sending addresses (entry :: rest)) :
    Delivers env { service.announce (newHistoryEvent env addresses entry) with
      sending := .sending addresses rest } := by
  obtain ⟨delivered, handed, tells⟩ := delivers.told
  have waiting := delivers.waiting
  rw [sending] at handed waiting
  refine {
    exited := fun impossible => nomatch impossible
    missed := fun some => by
      have gone := delivers.missed some
      rw [sending] at gone
      cases gone
    told := ⟨delivered ++ [entry], ?_, ?_⟩
    ordered := delivers.ordered.mono fun height known => known.append _
    waiting := fun other listed => (waiting other ?_).append _
    known := known_snoc delivers.known ?_ }
  · refine handed.trans ?_
    simp [Sending.held, announce]
  · change List.Forall₂ _ _ ((service.channel.log ++ [_]).filter isHistory)
    rw [List.filter_append, List.filter_cons_of_pos rfl, List.filter_nil]
    exact List.rel_append tells (.cons ⟨addresses, rfl⟩ .nil)
  · exact List.mem_cons_of_mem entry listed
  · intro addressToken value same
    have height : value.height = entry.2.height := by
      rw [newHistoryEvent, ServerEvent.newHistory.injEq] at same
      rw [← same.2]
      rfl
    rw [height]
    exact waiting entry List.mem_cons_self

theorem turn (queued : HandsOver channels.rawEvents) (delivers : Delivers env service)
    (turn : Turn env channels service next) : Delivers env next := by
  obtain ⟨delivered, handed, tells⟩ := delivers.told
  cases turn with
  | indexer kept outputs =>
      refine { delivers with
        exited := fun exited => kept (delivers.exited exited)
        ordered := ?_ }
      rcases outputs with rfl | ⟨_, ordered⟩
      · exact delivers.ordered
      · exact ordered.mono fun _ impossible => impossible.elim
  | announce head => exact delivers.announced head
  | handOver head there =>
      have ordered := delivers.ordered
      rw [head] at ordered
      refine { delivers with
        told := ⟨delivered, ?_, tells⟩
        ordered := ordered.2
        waiting := ?_ }
      · rw [handed]
        simp
      · intro entry listed
        simp only [List.flatten_append, List.flatten_cons, List.flatten_nil, List.append_nil,
          ← List.append_assoc] at listed
        rcases List.mem_append.mp listed with old | new
        · exact delivers.waiting entry old
        · exact ordered.1 entry new
  | miss head gone =>
      have ordered := delivers.ordered
      rw [head] at ordered
      exact { delivers with missed := fun _ => gone, ordered := ordered.2 }
  | take collecting received =>
      have shape := queued received
      have waiting := delivers.waiting
      rw [collecting, shape] at handed waiting
      refine { delivers with
        exited := fun impossible => nomatch impossible
        missed := fun some => ?_
        told := ⟨delivered, ?_, tells⟩
        waiting := ?_ }
      · have gone := delivers.missed some
        rw [collecting] at gone
        cases gone
      · rw [handed]
        simp [Sending.held]
      · simpa [Sending.held, or_assoc] using waiting
  | sender held there exits =>
      refine { delivers with
        exited := exits
        missed := fun some => absurd (delivers.missed some) there
        told := ⟨delivered, ?_, tells⟩
        waiting := ?_ }
      · rw [handed, held]
      · intro entry listed
        rw [held] at listed
        exact delivers.waiting entry listed
  | send sending => exact delivers.sent sending
  | subscribe | turnClient | poll => exact { delivers with }

end Delivers

structure Follows (env : Env) (channel : Broadcast ServerEvent) (client : Client) : Prop where
  within : client.window.Within channel
  received : client.received = (channel.taken client.window).filter (client.choice.accepts env)

namespace Follows

variable {channel : Broadcast ServerEvent} {client : Client} {service next : Service}

theorem send (follows : Follows env channel client) (event : ServerEvent) :
    Follows env (channel.send event) client where
  within := follows.within.send event
  received := by
    rw [Broadcast.taken_send follows.within]
    exact follows.received

theorem value (follows : Follows env service.channel client) {event : ServerEvent}
    (next : service.channel.log[client.window.next]? = some event) :
    Follows env service.channel { client with
      window := { client.window with next := client.window.next + 1 }
      polling := .idle
      received :=
        if client.choice.accepts env event then client.received ++ [event]
        else client.received } where
  within := {
    order := Nat.le_succ_of_le follows.within.order
    sent := (List.getElem?_eq_some_iff.mp next).1 }
  received := by
    rw [Broadcast.taken_next follows.within next, List.filter_append, ← follows.received]
    by_cases chosen : client.choice.accepts env event = true
    · rw [if_pos chosen, List.filter_cons_of_pos chosen, List.filter_nil]
    · rw [if_neg chosen, List.filter_cons_of_neg chosen, List.filter_nil, List.append_nil]

theorem poll {capacity : Nat} (keeps : Broadcast.Keeps capacity channels.events)
    (follows : Follows env service.channel client) :
    Follows env service.channel (service.poll env channels client) := by
  unfold Service.poll
  split
  · exact follows.value (keeps.placed ‹_›)
  · exact { follows with }
  · exact { follows with }

theorem turn {capacity : Nat} (keeps : Broadcast.Keeps capacity channels.events)
    (follows : ∀ id client, service.clients.get id = some client →
      Follows env service.channel client) (turn : Turn env channels service next) :
    ∀ id client, next.clients.get id = some client → Follows env next.channel client := by
  -- a client that is set follows the channel, and the others stay
  have set : ∀ other changed, Follows env service.channel changed → ∀ id client,
      (service.setClient other changed).clients.get id = some client →
        Follows env service.channel client := by
    intro other changed own id client found
    rw [setClient, Table.get_set] at found
    split at found
    · cases found
      exact own
    · exact follows id client found
  cases turn with
  | indexer | handOver | miss | take | sender => exact follows
  | announce | send => exact fun id client found => (follows id client found).send _
  | subscribe new =>
      refine set _ _ ⟨⟨Nat.le_refl _, Nat.le_refl _⟩, ?_⟩
      rw [Broadcast.taken_subscribe]
      rfl
  | turnClient known => exact set _ _ { follows _ _ known with }
  | poll known => exact set _ _ ((follows _ _ known).poll keeps)

end Follows

abbrev Reached (env : Env) (channels : Channels) (service : Service) : Prop :=
  Reaches (step env channels) (fun _ _ => True) {} service

theorem Reached.delivers {service : Service} (queued : HandsOver channels.rawEvents)
    (reached : Reached env channels service) : Delivers env service := by
  refine reached.invariant ?_ ?_
  · exact {
      exited := fun impossible => nomatch impossible
      missed := fun some => absurd rfl some
      told := ⟨[], rfl, .nil⟩
      ordered := trivial
      waiting := fun _ impossible => nomatch impossible
      known := fun before _ _ _ impossible => by
        cases before <;> cases impossible }
  · intro service action next delivers _ stepped
    exact delivers.turn queued (step_turn delivers.exited stepped)

theorem Reached.follows {capacity : Nat} {service : Service}
    (documented : channels.Documented capacity) (reached : Reached env channels service) :
    ∀ id client, service.clients.get id = some client → Follows env service.channel client := by
  induction reached with
  | start => exact fun _ _ impossible => nomatch impossible
  | step earlier _ stepped ih =>
      have delivers := Reached.delivers documented.rawEvents earlier
      exact Follows.turn documented.events ih (step_turn delivers.exited stepped)

end Service

namespace Sample

def channels : Channels where
  rawEvents := popFront
  events := Broadcast.ring 4

theorem channels_documented : channels.Documented 4 where
  rawEvents := popFront_handsOver
  events := Broadcast.ring_keeps 4

def index (event : BlockEvent) : List Action :=
  [.look, .receive event, .handle, .output, .output]

def listen : List Action :=
  index (delivery 1 payWojak 0) ++ [.subscribe 7 ⟨∅, {env.lowerRest wojak.rest}⟩] ++
    index (delivery 2 inscribeWojak 0) ++
    [.collect, .collect, .collect, .resolve, .send, .check 7, .poll 7, .send, .send, .check 7,
      .poll 7]

end Sample

namespace Service

/-- In every run the entries of the history are told in the order in which they are handed over,
each once; none is missed before the event sender has ended, which it does after a cancellation
only, and the indexer never panics for it. -/
theorem history_delivered {env : Env} {channels : Channels} {service : Service}
    (queued : HandsOver channels.rawEvents) (reached : Reached env channels service) :
    (∃ delivered, service.handed = delivered ++ (service.sending.held ++ service.queue.flatten) ∧
      List.Forall₂ (Tells env) delivered (service.channel.log.filter isHistory)) ∧
    (service.missed ≠ [] → service.sending = .exited ∧ service.cancelled = true) ∧
    ∀ action, service.step env channels action ≠ .error .failedToSend := by
  have delivers := reached.delivers queued
  refine ⟨delivers.told, ?_, ?_⟩
  · intro some
    have exited := delivers.missed some
    exact ⟨exited, delivers.exited exited⟩
  · intro action failed
    cases action with
    | output =>
        simp only [step] at failed
        split at failed
        · cases failed
        · rename_i output todo shape
          obtain ⟨after, sent, _⟩ := @output_turn env channels _ _ _ shape delivers.exited
          rw [sent] at failed
          cases failed
    | cancel => cases failed
    | look | wait | finish | receive | handle | collect | glance | resolve | subscribe | hangUp =>
        simp only [step] at failed
        split at failed <;> cases failed
    | send | check | poll =>
        simp only [step] at failed
        repeat' split at failed
        all_goals cases failed

theorem wojak_told : ∃ service, Reached Sample.env Sample.channels service ∧
    (service.channel.log.filter isHistory).length = 3 ∧
    ((∃ delivered, service.handed = delivered ++ (service.sending.held ++ service.queue.flatten) ∧
      List.Forall₂ (Tells Sample.env) delivered (service.channel.log.filter isHistory)) ∧
    (service.missed ≠ [] → service.sending = .exited ∧ service.cancelled = true) ∧
    ∀ action, service.step Sample.env Sample.channels action ≠ .error .failedToSend) := by
  obtain ⟨service, reached, told⟩ : ∃ service, Reached Sample.env Sample.channels service ∧
      (service.channel.log.filter isHistory).length = 3 :=
    Reaches.any Sample.listen (by decide +kernel)
  exact ⟨service, reached, told, history_delivered popFront_handsOver reached⟩

/-- In every run an entry is told after its block was made known. -/
theorem blocks_known {env : Env} {channels : Channels} {service : Service}
    (queued : HandsOver channels.rawEvents) (reached : Reached env channels service)
    {before after : List ServerEvent} {addressToken : AddressTokenIdEvent}
    {value : HistoryValueEvent}
    (told : service.channel.log = before ++ .newHistory addressToken value :: after) :
    ∃ proof hash, .newBlock value.height proof hash ∈ before :=
  (reached.delivers queued).known before addressToken value after told

theorem wojak_known : ∃ service before addressToken value after,
    Reached Sample.env Sample.channels service ∧
    service.channel.log = before ++ .newHistory addressToken value :: after ∧
    ∃ proof hash, .newBlock value.height proof hash ∈ before := by
  obtain ⟨service, reached, told⟩ : ∃ service, Reached Sample.env Sample.channels service ∧
      service.channel.log.any isHistory = true :=
    Reaches.any Sample.listen (by decide +kernel)
  obtain ⟨event, listed, history⟩ := List.any_eq_true.mp told
  cases event with
  | newHistory addressToken value =>
      obtain ⟨before, after, split⟩ := List.append_of_mem listed
      exact ⟨service, before, addressToken, value, after, reached, split,
        blocks_known popFront_handsOver reached split⟩
  | reorg | newBlock => cases history

/-- In every run a client was sent what it chose of a part of the log without gaps; the next event
after that part is the next one it takes, unless the channel does not keep it any more. -/
theorem clients_follow {env : Env} {channels : Channels} {capacity : Nat} {service : Service}
    (documented : channels.Documented capacity) (reached : Reached env channels service)
    {id : Nat} {client : Client} (subscribed : service.clients.get id = some client) :
    ∃ before seen after, service.channel.log = before ++ seen ++ after ∧
      client.received = seen.filter (client.choice.accepts env) ∧
      ∀ event later, after = event :: later → after.length ≤ capacity →
        (service.poll env channels client).polling = .idle ∧
          (service.poll env channels client).received =
            (seen ++ [event]).filter (client.choice.accepts env) := by
  have own := reached.follows documented id client subscribed
  refine ⟨_, _, _, Broadcast.split_taken own.within, own.received, ?_⟩
  intro event later ahead near
  rw [ahead] at near
  have taken := documented.events.head ahead near
  have polled := (Follows.poll documented.events own).received
  have found := documented.events.placed taken
  rw [← Broadcast.taken_next own.within found]
  simp only [poll, taken] at polled ⊢
  exact ⟨trivial, polled⟩

theorem client_followed : ∃ service client, Reached Sample.env Sample.channels service ∧
    service.clients.get 7 = some client ∧ client.received.length = 2 ∧
    ∃ before seen after, service.channel.log = before ++ seen ++ after ∧
      client.received = seen.filter (client.choice.accepts Sample.env) ∧
      ∀ event later, after = event :: later → after.length ≤ 4 →
        (service.poll Sample.env Sample.channels client).polling = .idle ∧
          (service.poll Sample.env Sample.channels client).received =
            (seen ++ [event]).filter (client.choice.accepts Sample.env) := by
  obtain ⟨service, reached, sent⟩ : ∃ service, Reached Sample.env Sample.channels service ∧
      (service.clients.get 7).any (fun client => decide (client.received.length = 2)) = true :=
    Reaches.any Sample.listen (by decide +kernel)
  obtain ⟨client, subscribed, length⟩ := (Option.any_eq_true _ _).mp sent
  exact ⟨service, client, reached, subscribed, of_decide_eq_true length,
    clients_follow Sample.channels_documented reached subscribed⟩

end Service

end WjkIndexer
