import WjkIndexer.Tokens.Conservation

/-!
Feeding of the token cache: the inscriptions and the moves of a block as actions that
wait to be processed.
-/

namespace WjkIndexer.TokenCache

open FiniteTable Machine

/-- The caches that a block whose transactions have the ids `txids` can feed from `start`:
inscriptions stand at its own outputs, and moves are those of known transfers. -/
inductive Feed (env : Env) (txids : Finset Txid) (start : TokenCache) : TokenCache → Prop where
  | start : Feed env txids start start
  | inscribe {cache : TokenCache} (fed : Feed env txids start cache)
      (template : InscriptionTemplate) (height created : Nat)
      (own : template.location.outpoint.txid ∈ txids) :
      Feed env txids start (cache.parseTokenAction env template height created)
  | move {cache : TokenCache} (fed : Feed env txids start cache) (location : Location)
      (recipient : FullHash) (txid : Txid) (vout : Nat)
      (known : (cache.allTransfers.get location).isSome) :
      Feed env txids start (cache.transferred location recipient txid vout)

variable {env : Env} {txids : Finset Txid} {start cache : TokenCache}

/-- What an inscription can add to a cache. -/
inductive Inscribed (env : Env) (cache : TokenCache) (template : InscriptionTemplate)
    (height : Nat) : TokenCache → Prop where
  | ignored : Inscribed env cache template height cache
  | deploy (proto : DeployProtoDB) (empty : proto.supply = 0) (bounded : proto.max ≤ maxAmount) :
      Inscribed env cache template height { cache with
        tokenActions := cache.tokenActions ++ [.deploy template.genesis proto template.owner] }
  | mint (proto : MintProtoWrapper) (positive : proto.amt ≠ 0) :
      Inscribed env cache template height { cache with
        tokenActions := cache.tokenActions ++ [.mint template.owner proto
          template.location.outpoint.txid template.location.outpoint.vout] }
  | transfer (proto : MintProtoWrapper) (positive : proto.amt ≠ 0)
      (owned : env.isOpReturnHash template.owner = false) :
      Inscribed env cache template height { cache with
        tokenActions := cache.tokenActions ++ [.transfer template.location template.owner proto
          template.location.outpoint.txid template.location.outpoint.vout]
        allTransfers := cache.allTransfers.set template.location (transferProtoDB proto height) }

theorem decode_deploy_bounded {raw : RawBrc4} {proto : DeployProto}
    (decoded : raw.decode env = .ok (.deploy proto)) : proto.wrapper.max ≤ maxAmount := by
  cases raw with
  | mint protocol tick amt =>
      simp only [RawBrc4.decode, bind_ok] at decoded
      obtain ⟨_, _, _, _, result⟩ := decoded
      cases result
  | transfer protocol tick amt =>
      simp only [RawBrc4.decode, bind_ok] at decoded
      obtain ⟨_, _, _, _, result⟩ := decoded
      cases result
  | deploy protocol tick max lim dec =>
      simp only [RawBrc4.decode, bind_ok] at decoded
      obtain ⟨_, _, amount, validated, _, _, result⟩ := decoded
      cases result
      exact bel20Validate_le env validated

theorem tryParse_spec {contentType content : Bytes} {brc4 : Brc4}
    (parsed : tryParse env contentType content = .ok brc4) :
    acceptsValues env brc4 = true ∧ ∃ raw : RawBrc4, raw.decode env = .ok brc4 := by
  unfold tryParse at parsed
  split at parsed
  · split at parsed
    · split at parsed
      · cases parsed
      · cases parsed
      · rename_i raw _
        split at parsed
        · cases parsed
        · rename_i decoded result
          split at parsed
          · rename_i accepted
            cases parsed
            exact ⟨accepted, raw, result⟩
          · cases parsed
    · cases parsed
  · cases parsed

theorem parseTokenAction_inscribed (env : Env) (cache : TokenCache)
    (template : InscriptionTemplate) (height created : Nat) :
    Inscribed env cache template height (cache.parseTokenAction env template height created) := by
  unfold parseTokenAction
  split
  · exact .ignored
  rename_i kept
  split
  · rename_i contentType content _ _
    split
    · rename_i brc4 parsed
      obtain ⟨accepted, raw, decoded⟩ := tryParse_spec parsed
      cases brc4 with
      | mint proto =>
          simp only [pushAction]
          split
          · exact .ignored
          · rename_i wrapper value
            simp only [acceptsValues, value, Option.any_some, bne_iff_ne] at accepted
            exact .mint wrapper accepted
      | transfer proto =>
          simp only [pushAction]
          split
          · exact .ignored
          · rename_i wrapper value
            simp only [acceptsValues, value, Option.any_some, bne_iff_ne] at accepted
            simp only [Bool.or_eq_true, not_or, Bool.not_eq_true] at kept
            exact .transfer wrapper accepted kept.1
      | deploy proto =>
          simp only [pushAction]
          split
          · exact .ignored
          · rename_i wrapper value
            refine .deploy _ rfl ?_
            have bounded := decode_deploy_bounded decoded
            unfold DeployProto.value at value
            split at value
            · cases value
              exact bounded
            · cases value
    · exact .ignored
  · exact .ignored

def transfersAt (actions : List TokenAction) (location : Location) :
    List (FullHash × MintProtoWrapper) :=
  actions.filterMap fun
    | .transfer place owner proto _ _ => if place = location then some (owner, proto) else none
    | _ => none

theorem transfersAt_append (first second : List TokenAction) (location : Location) :
    transfersAt (first ++ second) location =
      transfersAt first location ++ transfersAt second location := by
  simp [transfersAt]

theorem mem_transfersAt {actions : List TokenAction} {location : Location} {owner : FullHash}
    {proto : MintProtoWrapper} :
    (owner, proto) ∈ transfersAt actions location ↔
      ∃ txid vout, .transfer location owner proto txid vout ∈ actions := by
  simp only [transfersAt, List.mem_filterMap]
  constructor
  · rintro ⟨action, listed, found⟩
    cases action with
    | transfer place holder record txid vout =>
        simp only [Option.ite_none_right_eq_some, Option.some.injEq, Prod.mk.injEq] at found
        obtain ⟨rfl, rfl, rfl⟩ := found
        exact ⟨txid, vout, listed⟩
    | deploy | mint | transferred => cases found
  · rintro ⟨txid, vout, listed⟩
    exact ⟨_, listed, by simp⟩

def OwnAction (env : Env) (txids : Finset Txid) : TokenAction → Prop
  | .deploy _ proto _ => proto.supply = 0 ∧ proto.max ≤ maxAmount
  | .mint _ proto _ _ => proto.amt ≠ 0
  | .transfer location owner proto _ _ => location.outpoint.txid ∈ txids ∧ proto.amt ≠ 0 ∧
      env.isOpReturnHash owner = false
  | .transferred .. => True

/-- What a cache has taken up when it is fed from `start`. -/
structure Fed (env : Env) (txids : Finset Txid) (start cache : TokenCache) : Prop where
  validTransfers : cache.validTransfers = start.validTransfers
  own : ∀ action ∈ cache.tokenActions, OwnAction env txids action
  -- the last transfer at a location stands for all of them
  last : ∀ location owner proto,
    (transfersAt cache.tokenActions location).getLast? = some (owner, proto) →
    ∃ height, cache.allTransfers.get location = some (transferProtoDB proto height)
  loaded : ∀ location, transfersAt cache.tokenActions location = [] →
    cache.allTransfers.get location = start.allTransfers.get location
  moved : ∀ location recipient txid vout,
    .transferred location recipient txid vout ∈ cache.tokenActions →
    (cache.allTransfers.get location).isSome

theorem Fed.push (fed : Fed env txids start cache) {action : TokenAction}
    (own : OwnAction env txids action)
    (plain : ∀ location, transfersAt [action] location = [])
    (known : ∀ location recipient txid vout, action = .transferred location recipient txid vout →
      (cache.allTransfers.get location).isSome) :
    Fed env txids start { cache with tokenActions := cache.tokenActions ++ [action] } where
  validTransfers := fed.validTransfers
  own other listed := by
    rcases List.mem_append.mp listed with old | new
    · exact fed.own other old
    · rw [List.mem_singleton.mp new]
      exact own
  last location owner proto found := by
    rw [transfersAt_append, plain, List.append_nil] at found
    exact fed.last location owner proto found
  loaded location none := by
    rw [transfersAt_append, plain, List.append_nil] at none
    exact fed.loaded location none
  moved location recipient txid vout listed := by
    rcases List.mem_append.mp listed with old | new
    · exact fed.moved location recipient txid vout old
    · exact known location recipient txid vout (List.mem_singleton.mp new).symm

theorem Fed.inscribe (fed : Fed env txids start cache) {template : InscriptionTemplate}
    (ownPlace : template.location.outpoint.txid ∈ txids) {height : Nat} {next : TokenCache}
    (inscribed : Inscribed env cache template height next) : Fed env txids start next := by
  cases inscribed with
  | ignored => exact fed
  | deploy proto empty bounded =>
      exact fed.push ⟨empty, bounded⟩ (fun _ => rfl) (fun _ _ _ _ impossible => nomatch impossible)
  | mint proto positive =>
      exact fed.push positive (fun _ => rfl) (fun _ _ _ _ impossible => nomatch impossible)
  | transfer proto positive owned =>
      refine {
        validTransfers := fed.validTransfers
        own := ?_
        last := ?_
        loaded := ?_
        moved := ?_ }
      · intro other listed
        rcases List.mem_append.mp listed with old | new
        · exact fed.own other old
        · rw [List.mem_singleton.mp new]
          exact ⟨ownPlace, positive, owned⟩
      · intro location owner record found
        rw [transfersAt_append] at found
        by_cases same : template.location = location
        · subst same
          simp only [transfersAt, List.filterMap_cons, List.filterMap_nil, if_true,
            List.getLast?_append, List.getLast?_singleton, Option.some_or, Option.some.injEq,
            Prod.mk.injEq] at found
          obtain ⟨rfl, rfl⟩ := found
          exact ⟨height, Table.get_set_self _ _ _⟩
        · have none : transfersAt [.transfer template.location template.owner proto
              template.location.outpoint.txid template.location.outpoint.vout] location = [] := by
            simp [transfersAt, same]
          rw [none, List.append_nil] at found
          rw [Table.get_set_ne _ _ (Ne.symm same)]
          exact fed.last location owner record found
      · intro location absent
        rw [transfersAt_append, List.append_eq_nil_iff] at absent
        have different : location ≠ template.location := by
          rintro rfl
          simp [transfersAt] at absent
        rw [Table.get_set_ne _ _ different]
        exact fed.loaded location absent.1
      · intro location recipient txid vout listed
        rcases List.mem_append.mp listed with old | new
        · rw [Table.get_set]
          split
          · rfl
          · exact fed.moved location recipient txid vout old
        · cases List.mem_singleton.mp new

theorem Feed.fed (feed : Feed env txids start cache) (idle : start.tokenActions = []) :
    Fed env txids start cache := by
  induction feed with
  | start =>
      exact {
        validTransfers := rfl
        own := by simp [idle]
        last := by simp [idle, transfersAt]
        loaded := fun _ _ => rfl
        moved := by simp [idle] }
  | inscribe feed template height created own ih =>
      exact ih.inscribe own (parseTokenAction_inscribed env _ template height created)
  | move feed location recipient txid vout known ih =>
      refine ih.push trivial (fun _ => rfl) ?_
      intro place _ _ _ same
      cases same
      exact known

theorem valid_origin {holders : Holders} {done : Processing}
    (returned : processTokenActions env cache holders = .ok done) {location : Location}
    {transfer : FullHash × TransferProtoDB}
    (valid : done.cache.validTransfers.get location = some transfer) :
    cache.validTransfers.get location = some transfer ∨
      transfersAt cache.tokenActions location ≠ [] := by
  refine Machine.run_induction
    (fun past (state : Processing) => ∀ transfer,
      state.cache.validTransfers.get location = some transfer →
      cache.validTransfers.get location = some transfer ∨ transfersAt past location ≠ [])
    returned (fun _ found => Or.inl found) ?_ transfer valid
  intro past action future state next split known stepped transfer found
  obtain ⟨done, turn, rfl⟩ := step_turn stepped
  have later : ∀ transfer, state.cache.validTransfers.get location = some transfer →
      cache.validTransfers.get location = some transfer ∨
        transfersAt (past ++ [action]) location ≠ [] := by
    intro transfer before
    rcases known transfer before with loaded | inscribed
    · exact Or.inl loaded
    · rw [transfersAt_append]
      exact Or.inr (by simp [inscribed])
  cases turn with
  | redeployed | deployed | mintSkipped | minted | transferStale | transferSkipped
  | transferredStale =>
      exact later transfer found
  | @transferAccepted place owner proto txid vout =>
      rw [Table.get_set] at found
      split at found
      · rename_i same
        rw [transfersAt_append]
        exact Or.inr (by simp [transfersAt, same])
      · exact later transfer found
  | burned | sent =>
      rw [Table.get_remove] at found
      split at found
      · cases found
      · exact later transfer found

end WjkIndexer.TokenCache
