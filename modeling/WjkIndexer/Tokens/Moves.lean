import WjkIndexer.Inscriptions.Moved
import WjkIndexer.Tokens.Live

/-!
The events of a block with the actions that made them: a transfer that is moved was loaded or
accepted before, and its move makes one send.
-/

namespace WjkIndexer.TokenCache

open FiniteTable Machine

/-- An action and an event that it made. -/
abbrev ActionEvent := TokenAction × HistoryTokenAction

def Processing.after (state : Processing) (done : Processed) : Processing :=
  { cache := done.cache, holders := done.holders, history := state.history ++ done.event.toList }

def eventsFrom (env : Env) : Processing → List TokenAction → List ActionEvent
  | _, [] => []
  | state, action :: rest =>
      match processAction env state.cache state.holders action with
      | .error _ => []
      | .ok done =>
          done.event.toList.map (Prod.mk action) ++ eventsFrom env (state.after done) rest

/-- The events that processing the actions of a cache makes. -/
def events (env : Env) (cache : TokenCache) (holders : Holders) : List ActionEvent :=
  eventsFrom env { cache := { cache with tokenActions := [] }, holders } cache.tokenActions

def sendsAt (location : Location) (events : List ActionEvent) : List HistoryTokenAction :=
  (events.filter fun entry => entry.1.movedFrom = some location).map Prod.snd

def lockersAt (location : Location) (events : List ActionEvent) : List FullHash :=
  (events.filter fun entry => entry.1.inscribedAt = some location).map fun entry =>
    entry.2.recipient

variable {env : Env} {db : DB} {cache : TokenCache} {holders : Holders}

@[simp] theorem sendsAt_append (location : Location) (first second : List ActionEvent) :
    sendsAt location (first ++ second) = sendsAt location first ++ sendsAt location second := by
  simp [sendsAt]

@[simp] theorem lockersAt_append (location : Location) (first second : List ActionEvent) :
    lockersAt location (first ++ second) =
      lockersAt location first ++ lockersAt location second := by
  simp [lockersAt]

theorem eventsFrom_append {start state : Processing} {past : List TokenAction}
    (ran : past.foldlM (Processing.step env) start = .ok state) (future : List TokenAction) :
    eventsFrom env start (past ++ future) =
      eventsFrom env start past ++ eventsFrom env state future := by
  induction past generalizing start with
  | nil =>
      cases ran
      rfl
  | cons action rest ih =>
      obtain ⟨next, stepped, later⟩ := run_cons_ok.mp ran
      unfold Processing.step at stepped
      simp only [List.cons_append, eventsFrom]
      cases processed : processAction env start.cache start.holders action with
      | error fault =>
          rw [processed] at stepped
          cases stepped
      | ok done =>
          rw [processed] at stepped
          cases stepped
          have rest := ih later
          rw [List.append_assoc]
          exact congrArg _ rest

theorem events_induction {done : Processing}
    (returned : processTokenActions env cache holders = .ok done)
    (inv : List TokenAction → Processing → List ActionEvent → Prop)
    (initial : inv [] { cache := { cache with tokenActions := [] }, holders } [])
    (preserved : ∀ past action future state events processed,
      past ++ action :: future = cache.tokenActions → inv past state events →
      Turn id env state.cache state.holders action processed →
      inv (past ++ [action]) (state.after processed)
        (events ++ processed.event.toList.map (Prod.mk action))) :
    inv cache.tokenActions done (events env cache holders) := by
  refine (Machine.run_induction (fun past (state : Processing) =>
    past.foldlM (Processing.step env)
      { cache := { cache with tokenActions := [] }, holders } = .ok state ∧
    inv past state (eventsFrom env
      { cache := { cache with tokenActions := [] }, holders } past)) returned
    ⟨rfl, initial⟩ ?_).2
  rintro past action future state next split ⟨ran, holds⟩ stepped
  refine ⟨run_append_ok.mpr ⟨state, ran, run_cons_ok.mpr ⟨next, stepped, rfl⟩⟩, ?_⟩
  rw [eventsFrom_append ran]
  unfold Processing.step at stepped
  cases processed : processAction env state.cache state.holders action with
  | error fault =>
      rw [processed] at stepped
      cases stepped
  | ok done =>
      have turn := processAction_turn processed
      rw [processed] at stepped
      cases stepped
      simp only [eventsFrom, processed, List.append_nil]
      exact preserved past action future state _ done split holds turn

/-- The events that are told with their actions are the history that the code returns. -/
theorem history_events {done : Processing}
    (returned : processTokenActions env cache holders = .ok done) :
    done.history = (events env cache holders).map Prod.snd := by
  refine events_induction returned (fun _ state events => state.history = events.map Prod.snd)
    rfl ?_
  intro past action future state events processed _ same _
  simp [Processing.after, same, Function.comp_def]

def ownersAt (cache : TokenCache) (location : Location) (events : List ActionEvent) :
    List FullHash :=
  ((cache.validTransfers.get location).map Prod.fst).toList ++ lockersAt location events

/-- What the moves of a location have done to the transfers there. -/
structure Consumed (cache : TokenCache) (past : List TokenAction) (state : TokenCache)
    (events : List ActionEvent) (location : Location) : Prop where
  pending : location ∉ movedLocations past → sendsAt location events = [] ∧
    ((state.validTransfers.get location).map Prod.fst).toList = ownersAt cache location events
  settled : location ∈ movedLocations past → state.validTransfers.get location = none ∧
    (sendsAt location events).map HistoryTokenAction.sender =
      (ownersAt cache location events).map some
  single : (ownersAt cache location events).length ≤ 1

namespace Consumed

variable {past future : List TokenAction} {state next : TokenCache} {made : List ActionEvent}
  {location : Location} {action : TokenAction}

theorem skip (consumed : Consumed cache past state made location)
    (elsewhere : action.movedFrom ≠ some location) {event : Option HistoryTokenAction}
    (plain : event = none ∨ action.inscribedAt ≠ some location)
    (same : next.validTransfers.get location = state.validTransfers.get location) :
    Consumed cache (past ++ [action]) next (made ++ event.toList.map (Prod.mk action))
      location := by
  have moves : location ∈ movedLocations (past ++ [action]) ↔ location ∈ movedLocations past := by
    rw [movedLocations_append, movedLocations_singleton, List.mem_append]
    simp [elsewhere]
  have sends : sendsAt location (event.toList.map (Prod.mk action)) = [] := by
    simp [sendsAt, elsewhere]
  have owners : lockersAt location (event.toList.map (Prod.mk action)) = [] := by
    rcases plain with rfl | other
    · rfl
    · simp [lockersAt, other]
  have sameOwners : ownersAt cache location (made ++ event.toList.map (Prod.mk action)) =
      ownersAt cache location made := by
    rw [ownersAt, lockersAt_append, owners, List.append_nil, ownersAt]
  refine {
    pending := ?_
    settled := ?_
    single := by rw [sameOwners]; exact consumed.single }
  · rw [moves, sendsAt_append, sends, List.append_nil, sameOwners, same]
    exact consumed.pending
  · rw [moves, sendsAt_append, sends, List.append_nil, sameOwners, same]
    exact consumed.settled

theorem accept (consumed : Consumed cache past state made location)
    (unmoved : location ∉ movedLocations past)
    (vacant : state.validTransfers.get location = none) {owner : FullHash}
    {proto : MintProtoWrapper} {txid : Txid} {vout : Nat} {event : HistoryTokenAction}
    (locks : event.recipient = owner) {data : TransferProtoDB}
    (valid : next.validTransfers.get location = some (owner, data)) :
    Consumed cache (past ++ [.transfer location owner proto txid vout]) next
      (made ++ [(.transfer location owner proto txid vout, event)]) location := by
  obtain ⟨none, owners⟩ := consumed.pending unmoved
  rw [vacant] at owners
  have later : ownersAt cache location
      (made ++ [(.transfer location owner proto txid vout, event)]) = [owner] := by
    rw [ownersAt, lockersAt_append, ← List.append_assoc, ← ownersAt, ← owners]
    simp [lockersAt, TokenAction.inscribedAt, locks]
  refine {
    pending := fun _ => ⟨?_, by rw [later, valid]; rfl⟩
    settled := ?_
    single := by rw [later]; exact Nat.le_refl _ }
  · rw [sendsAt_append, none]
    simp [sendsAt, TokenAction.movedFrom]
  · intro moved
    rw [movedLocations_append, movedLocations_singleton, List.mem_append] at moved
    rcases moved with old | new
    · exact absurd old unmoved
    · simp [TokenAction.movedFrom] at new

theorem move (consumed : Consumed cache past state made location)
    (unmoved : location ∉ movedLocations past) {recipient : FullHash} {txid : Txid} {vout : Nat}
    {event : Option HistoryTokenAction}
    (sender : event.toList.map HistoryTokenAction.sender =
      ((state.validTransfers.get location).map Prod.fst).toList.map some)
    (vacant : next.validTransfers.get location = none) :
    Consumed cache (past ++ [.transferred location recipient txid vout]) next
      (made ++ event.toList.map (Prod.mk (.transferred location recipient txid vout)))
      location := by
  obtain ⟨none, owners⟩ := consumed.pending unmoved
  have same : ownersAt cache location
      (made ++ event.toList.map (Prod.mk (.transferred location recipient txid vout))) =
      ownersAt cache location made := by
    rw [ownersAt, lockersAt_append, ownersAt]
    simp [lockersAt, TokenAction.inscribedAt]
  refine {
    pending := ?_
    settled := fun _ => ⟨vacant, ?_⟩
    single := by rw [same]; exact consumed.single }
  · intro moved
    rw [movedLocations_append, movedLocations_singleton, List.mem_append, not_or] at moved
    simp [TokenAction.movedFrom] at moved
  · rw [same, ← owners, ← sender, sendsAt_append, none, List.nil_append]
    cases event <;> simp [sendsAt, TokenAction.movedFrom]

theorem start (cache : TokenCache) (location : Location)
    (same : state.validTransfers = cache.validTransfers) :
    Consumed cache [] state [] location where
  pending _ := ⟨rfl, by rw [same, ownersAt]; exact (List.append_nil _).symm⟩
  settled moved := by cases moved
  single := by
    rw [ownersAt]
    cases (cache.validTransfers.get location).map Prod.fst <;> simp [lockersAt]

theorem step (consumed : Consumed cache past state made location)
    (traced : Traced env (cache.loadTokensData env db).tokens cache past state)
    (preloadable : Preloadable env db cache) (ordered : Ordered cache.tokenActions)
    (once : (movedLocations cache.tokenActions).Nodup)
    (split : past ++ action :: future = cache.tokenActions) {processed : Processed}
    (turn : Turn id env state holders action processed) :
    Consumed cache (past ++ [action]) processed.cache
      (made ++ processed.event.toList.map (Prod.mk action)) location := by
  have first : action.movedFrom = some location → location ∉ movedLocations past := by
    intro moves listed
    rw [← split, movedLocations_append] at once
    have now : location ∈ movedLocations (action :: future) :=
      List.mem_filterMap.mpr ⟨action, List.mem_cons_self, moves⟩
    exact (List.nodup_append.mp once).2.2 location listed location now rfl
  cases turn with
  | redeployed | mintSkipped | transferStale | transferSkipped =>
      refine consumed.skip ?_ (Or.inl rfl) rfl
      intro moves
      cases moves
  | deployed | minted =>
      refine consumed.skip ?_ (Or.inr ?_) rfl
      · intro moves
        cases moves
      · intro inscribes
        cases inscribes
  | @transferAccepted place owner proto txid vout data token account known found filed covered =>
      by_cases here : place = location
      · subst here
        have unmoved := ordered.unmoved split rfl
        have vacant : state.validTransfers.get place = none := by
          apply Option.eq_none_iff_forall_ne_some.mpr
          rintro ⟨sender, record⟩ valid
          rcases traced.origin place sender record valid with loaded | ⟨inscribed, _⟩
          · have none := preloadable.fresh place (by simp [← split, transfersAt])
            rw [none] at loaded
            cases loaded
          · rw [traced.spent place inscribed] at known
            cases known
        exact consumed.accept unmoved vacant rfl (Table.get_set_self _ _ _)
      · refine consumed.skip ?_ (Or.inr ?_) (Table.get_set_ne _ _ (Ne.symm here))
        · intro moves
          cases moves
        · exact fun inscribes => here (Option.some.inj inscribes)
  | @transferredStale place recipient txid vout absent =>
      by_cases here : place = location
      · subst here
        exact consumed.move (first rfl) (by rw [absent]; rfl) absent
      · refine consumed.skip ?_ (Or.inl rfl) rfl
        exact fun moves => here (Option.some.inj moves)
  | @burned place recipient txid vout sender data token old decreased valid found filed pending
      covered counted burn =>
      by_cases here : place = location
      · subst here
        exact consumed.move (first rfl) (by rw [valid]; rfl) (Table.get_remove_self _ _)
      · refine consumed.skip ?_ (Or.inr ?_) (Table.get_remove_ne _ (Ne.symm here))
        · exact fun moves => here (Option.some.inj moves)
        · intro inscribes
          cases inscribes
  | @sent place recipient txid vout sender data token old account decreased increased valid found
      filed pending covered counted kept credited recounted =>
      by_cases here : place = location
      · subst here
        exact consumed.move (first rfl) (by rw [valid]; rfl) (Table.get_remove_self _ _)
      · refine consumed.skip ?_ (Or.inr ?_) (Table.get_remove_ne _ (Ne.symm here))
        · exact fun moves => here (Option.some.inj moves)
        · intro inscribes
          cases inscribes

end Consumed

theorem events_consumed (preloadable : Preloadable env db cache)
    (ordered : Ordered cache.tokenActions) (once : (movedLocations cache.tokenActions).Nodup)
    {done : Processing}
    (returned : processTokenActions env (cache.loadTokensData env db) holders = .ok done)
    (location : Location) :
    Consumed cache cache.tokenActions done.cache
      (events env (cache.loadTokensData env db) holders) location := by
  refine (events_induction returned (fun past state made =>
    Running env db cache past state.cache ∧ Consumed cache past state.cache made location)
    ⟨Running.start preloadable.filed, .start cache location rfl⟩ ?_).2
  rintro past action future state made processed split ⟨running, consumed⟩ turn
  exact ⟨running.step split turn,
    consumed.step running.traced preloadable ordered once split turn⟩

end WjkIndexer.TokenCache
