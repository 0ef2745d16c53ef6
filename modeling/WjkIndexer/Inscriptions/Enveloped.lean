import WjkIndexer.Inscriptions.Envelope

/-!
Envelopes in tapscripts: those that the parser returns lie in the script one after another,
and it misses none that stands in the clear.
-/

namespace WjkIndexer

open RawEnvelope

def Instruction.pushed : Instruction → Option Bytes
  | .pushBytes push => some push
  | .op opcode =>
      if opcode = opPushnumNeg1 then some [0x81]
      else if opPushnum1 ≤ opcode ∧ opcode ≤ opPushnum16 then some [UInt8.ofNat (opcode - 0x50)]
      else none

def enveloped (run : List Instruction) : List Instruction :=
  .pushBytes [] :: .op opIf :: .pushBytes protocolId :: run ++ [.op opEndif]

/-- A script with envelopes around the runs, in order, and other instructions between them. -/
inductive Layout (between : Instruction → Prop) : List (List Instruction) → List Instruction → Prop
    where
  | rest {script : List Instruction} (plain : ∀ instruction ∈ script, between instruction) :
      Layout between [] script
  | envelope {before run : List Instruction} {runs : List (List Instruction)}
      {script : List Instruction} (plain : ∀ instruction ∈ before, between instruction)
      (others : Layout between runs script) :
      Layout between (run :: runs) (before ++ enveloped run ++ script)

def Matches (run : List Instruction) (envelope : RawEnvelope) : Prop :=
  run.map Instruction.pushed = envelope.payload.map some

theorem Layout.prepend {runs : List (List Instruction)} {script : List Instruction}
    (layout : Layout (fun _ => True) runs script) (front : List Instruction) :
    Layout (fun _ => True) runs (front ++ script) := by
  cases layout with
  | rest plain => exact .rest fun _ _ => trivial
  | @envelope before run runs script plain others =>
      have same : front ++ (before ++ enveloped run ++ script) =
          (front ++ before) ++ enveloped run ++ script := by simp only [List.append_assoc]
      rw [same]
      exact .envelope (fun _ _ => trivial) others

theorem readPayload_push {instruction : Instruction} {value : Bytes}
    (pushed : instruction.pushed = some value) (script : List Instruction) (payload : List Bytes)
    (pushnum : Bool) :
    ∃ number, readPayload ((instruction :: script).map some) payload pushnum =
      readPayload (script.map some) (payload ++ [value]) number := by
  cases instruction with
  | pushBytes push =>
      cases pushed
      exact ⟨pushnum, rfl⟩
  | op opcode =>
      refine ⟨true, ?_⟩
      rw [Instruction.pushed] at pushed
      rw [List.map_cons, readPayload]
      by_cases negative : opcode = opPushnumNeg1
      · rw [if_pos negative] at pushed
        cases pushed
        rw [if_neg (by rw [negative]; decide), if_pos negative]
      · rw [if_neg negative] at pushed
        split at pushed
        · rename_i small
          cases pushed
          have other : opcode ≠ opEndif := by
            have bound := small.2
            unfold opPushnum16 at bound
            unfold opEndif
            omega
          rw [if_neg other, if_neg negative, if_pos small]
        · cases pushed

theorem readPayload_spec (script : List Instruction) (payload : List Bytes) (pushnum : Bool) :
    ∃ (front rest : List Instruction) (result : Option (List Bytes × Bool)),
      script = front ++ rest ∧
      readPayload (script.map some) payload pushnum = some (rest.map some, result) ∧
      ∀ values number, result = some (values, number) →
        ∃ (run : List Instruction) (new : List Bytes), front = run ++ [.op opEndif] ∧
          run.map Instruction.pushed = new.map some ∧ values = payload ++ new := by
  induction script generalizing payload pushnum with
  | nil => exact ⟨[], [], none, rfl, rfl, fun _ _ impossible => by cases impossible⟩
  | cons instruction script ih =>
      cases pushed : instruction.pushed with
      | some value =>
          obtain ⟨number, step⟩ := readPayload_push pushed script payload pushnum
          obtain ⟨front, rest, result, rfl, read, ends⟩ := ih (payload ++ [value]) number
          refine ⟨instruction :: front, rest, result, rfl, step.trans read, ?_⟩
          intro values number same
          obtain ⟨run, new, rfl, valued, rfl⟩ := ends values number same
          refine ⟨instruction :: run, value :: new, rfl, ?_, by simp⟩
          rw [List.map_cons, List.map_cons, pushed, valued]
      | none =>
          cases instruction with
          | pushBytes push => cases pushed
          | op opcode =>
              rw [Instruction.pushed] at pushed
              split at pushed
              · cases pushed
              rename_i negative
              split at pushed
              · cases pushed
              rename_i small
              by_cases ends : opcode = opEndif
              · subst ends
                refine ⟨[.op opEndif], script, some (payload, pushnum), rfl, ?_, ?_⟩
                · rw [List.map_cons, readPayload, if_pos rfl]
                · intro values number same
                  cases same
                  exact ⟨[], [], rfl, rfl, by simp⟩
              · refine ⟨[.op opcode], script, none, rfl, ?_, fun _ _ impossible => by
                  cases impossible⟩
                rw [List.map_cons, readPayload, if_neg ends, if_neg negative, if_neg small]

theorem readPayload_run {run : List Instruction} {values : List Bytes}
    (valued : run.map Instruction.pushed = values.map some) (rest : List Instruction)
    (payload : List Bytes) (pushnum : Bool) :
    ∃ number, readPayload ((run ++ .op opEndif :: rest).map some) payload pushnum =
      some (rest.map some, some (payload ++ values, number)) := by
  induction run generalizing values payload pushnum with
  | nil =>
      cases values with
      | nil =>
          refine ⟨pushnum, ?_⟩
          rw [List.nil_append, List.map_cons, readPayload, if_pos rfl, List.append_nil]
      | cons => cases valued
  | cons instruction run ih =>
      cases values with
      | nil => cases valued
      | cons value values =>
          rw [List.map_cons, List.map_cons, List.cons.injEq] at valued
          obtain ⟨number, step⟩ :=
            readPayload_push valued.1 (run ++ .op opEndif :: rest) payload pushnum
          obtain ⟨last, read⟩ := ih valued.2 (payload ++ [value]) number
          exact ⟨last, by rw [List.cons_append, step, read, List.append_assoc]; rfl⟩

theorem fromInstructions_spec (script : List Instruction) (input offset : Nat) (stutter : Bool) :
    ∃ (front rest : List Instruction) (next : Bool) (result : Option RawEnvelope),
      script = front ++ rest ∧
      fromInstructions (script.map some) input offset stutter =
        some (rest.map some, next, result) ∧
      ∀ envelope, result = some envelope → ∃ run : List Instruction,
        .pushBytes [] :: front = enveloped run ∧ Matches run envelope ∧
          envelope.offset = offset := by
  have fails : ∀ (front rest : List Instruction), script = front ++ rest →
      fromInstructions (script.map some) input offset stutter =
        some (rest.map some, peeksEmptyPush (rest.map some), none) →
      ∃ (front rest : List Instruction) (next : Bool) (result : Option RawEnvelope),
        script = front ++ rest ∧
        fromInstructions (script.map some) input offset stutter =
          some (rest.map some, next, result) ∧
        ∀ envelope, result = some envelope → ∃ run : List Instruction,
          .pushBytes [] :: front = enveloped run ∧ Matches run envelope ∧
            envelope.offset = offset :=
    fun front rest shape failed =>
      ⟨front, rest, _, none, shape, failed, fun _ impossible => by cases impossible⟩
  match script with
  | [] => exact fails [] [] rfl rfl
  | .pushBytes push :: after => exact fails [] _ rfl rfl
  | .op opcode :: after =>
      by_cases begins : opcode = opIf
      · subst begins
        match after with
        | [] => exact fails [.op opIf] [] rfl (by simp [fromInstructions])
        | .op other :: after => exact fails [.op opIf] _ rfl (by simp [fromInstructions])
        | .pushBytes push :: after =>
            by_cases protocol : push = protocolId
            · subst protocol
              obtain ⟨front, rest, result, rfl, read, ends⟩ := readPayload_spec after [] false
              have taken : fromInstructions
                  ((.op opIf :: .pushBytes protocolId :: (front ++ rest)).map some) input offset
                  stutter = some (rest.map some, false, result.map fun read =>
                    { input, offset, payload := read.1, pushnum := read.2, stutter }) := by
                rw [List.map_cons, List.map_cons, fromInstructions]
                simp only [if_true, read, Option.map_some]
              refine ⟨.op opIf :: .pushBytes protocolId :: front, rest, false, _, rfl, taken, ?_⟩
              intro envelope same
              obtain ⟨values, found, rfl⟩ := Option.map_eq_some_iff.mp same
              obtain ⟨run, new, rfl, valued, whole⟩ := ends values.1 values.2 found
              refine ⟨run, rfl, ?_, rfl⟩
              rw [Matches, valued, whole, List.nil_append]
            · exact fails [.op opIf] _ rfl (by simp [fromInstructions, protocol])
      · exact fails [] _ rfl (by simp [fromInstructions, begins])

/-- Envelopes numbered from `first` on. -/
def NumberedFrom (first : Nat) (envelopes : List RawEnvelope) : Prop :=
  ∀ index envelope, envelopes[index]? = some envelope → envelope.offset = first + index

theorem NumberedFrom.cons {first : Nat} {envelope : RawEnvelope} {envelopes : List RawEnvelope}
    (head : envelope.offset = first) (rest : NumberedFrom (first + 1) envelopes) :
    NumberedFrom first (envelope :: envelopes) := by
  intro index other found
  cases index with
  | zero =>
      cases found
      exact head
  | succ index =>
      rw [List.getElem?_cons_succ] at found
      have number := rest index other found
      omega

theorem scan_sound (input : Nat) {fuel : Nat} {script : List Instruction}
    (enough : script.length ≤ fuel) (envelopes : List RawEnvelope) (stuttered : Bool) :
    ∃ (runs : List (List Instruction)) (new : List RawEnvelope),
      scan input fuel (script.map some) envelopes stuttered = some (envelopes ++ new) ∧
      Layout (fun _ => True) runs script ∧ List.Forall₂ Matches runs new ∧
      NumberedFrom envelopes.length new := by
  induction fuel generalizing script envelopes stuttered with
  | zero =>
      cases script with
      | nil =>
          exact ⟨[], [], by simp [scan], .rest (by simp), .nil,
            fun _ _ impossible => by cases impossible⟩
      | cons => cases enough
  | succ fuel ih =>
      cases script with
      | nil =>
          exact ⟨[], [], by simp [scan], .rest (by simp), .nil,
            fun _ _ impossible => by cases impossible⟩
      | cons instruction script =>
          rw [List.length_cons] at enough
          rw [List.map_cons, scan]
          by_cases empty : instruction = .pushBytes []
          · subst empty
            obtain ⟨front, rest, next, result, rfl, taken, made⟩ :=
              fromInstructions_spec script input envelopes.length stuttered
            rw [List.length_append] at enough
            rw [if_pos rfl, taken]
            cases result with
            | none =>
                obtain ⟨runs, new, scanned, layout, others⟩ :=
                  ih (show rest.length ≤ fuel by omega) envelopes next
                exact ⟨runs, new, scanned, layout.prepend (.pushBytes [] :: front), others⟩
            | some envelope =>
                obtain ⟨run, shape, valued, number⟩ := made envelope rfl
                obtain ⟨runs, new, scanned, layout, paired, numbered⟩ :=
                  ih (show rest.length ≤ fuel by omega) (envelopes ++ [envelope]) stuttered
                rw [List.length_append] at numbered
                refine ⟨run :: runs, envelope :: new, ?_, ?_, .cons valued paired,
                  .cons number numbered⟩
                · dsimp only
                  rw [scanned, List.append_assoc]
                  rfl
                · rw [← List.cons_append, shape]
                  exact @Layout.envelope _ [] run runs rest (by simp) layout
          · obtain ⟨runs, new, scanned, layout, others⟩ :=
              ih (show script.length ≤ fuel by omega) envelopes stuttered
            rw [if_neg empty]
            exact ⟨runs, new, scanned, layout.prepend [instruction], others⟩

theorem scan_skip (input : Nat) {before : List Instruction}
    (plain : ∀ instruction ∈ before, instruction ≠ .pushBytes []) (rest : List Instruction)
    (fuel : Nat) (envelopes : List RawEnvelope) (stuttered : Bool) :
    scan input (before.length + fuel) ((before ++ rest).map some) envelopes stuttered =
      scan input fuel (rest.map some) envelopes stuttered := by
  induction before with
  | nil => rw [List.length_nil, Nat.zero_add, List.nil_append]
  | cons instruction before ih =>
      rw [List.length_cons, Nat.add_right_comm, List.cons_append, List.map_cons, scan,
        if_neg (plain instruction List.mem_cons_self)]
      exact ih fun other listed => plain other (List.mem_cons_of_mem _ listed)

theorem scan_complete (input : Nat) {runs : List (List Instruction)} {script : List Instruction}
    (layout : Layout (· ≠ .pushBytes []) runs script)
    (valued : ∀ run ∈ runs, ∃ values : List Bytes, run.map Instruction.pushed = values.map some)
    {fuel : Nat} (enough : script.length ≤ fuel) (envelopes : List RawEnvelope)
    (stuttered : Bool) :
    ∃ new, scan input fuel (script.map some) envelopes stuttered = some (envelopes ++ new) ∧
      List.Forall₂ Matches runs new := by
  induction layout generalizing fuel envelopes with
  | @rest script plain =>
      obtain ⟨more, rfl⟩ := Nat.exists_eq_add_of_le enough
      have skipped := scan_skip input plain [] more envelopes stuttered
      rw [List.append_nil] at skipped
      refine ⟨[], ?_, .nil⟩
      rw [skipped, List.append_nil]
      cases more <;> rfl
  | @envelope before run runs script plain others ih =>
      obtain ⟨values, pushed⟩ := valued run List.mem_cons_self
      simp only [enveloped, List.length_append, List.length_cons, List.length_nil] at enough
      obtain ⟨more, rfl⟩ := Nat.exists_eq_add_of_le (show before.length + 1 ≤ fuel by omega)
      obtain ⟨number, read⟩ := readPayload_run pushed script [] false
      let made : RawEnvelope := {
        input
        offset := envelopes.length
        payload := values
        pushnum := number
        stutter := stuttered }
      have taken : fromInstructions
          ((.op opIf :: .pushBytes protocolId :: (run ++ .op opEndif :: script)).map some) input
          envelopes.length stuttered = some (script.map some, false, some made) := by
        rw [List.map_cons, List.map_cons, fromInstructions]
        simp only [if_true, read, Option.map_some, List.nil_append, made]
      obtain ⟨new, scanned, found⟩ := ih
        (fun other listed => valued other (List.mem_cons_of_mem _ listed))
        (show script.length ≤ more by omega) (envelopes ++ [made])
      have matching : Matches run made := pushed
      refine ⟨made :: new, ?_, .cons matching found⟩
      have shape : before ++ enveloped run ++ script = before ++
          .pushBytes [] :: .op opIf :: .pushBytes protocolId :: (run ++ .op opEndif :: script) := by
        simp [enveloped]
      rw [shape, Nat.add_assoc, scan_skip input plain, Nat.add_comm 1 more, List.map_cons, scan,
        if_pos rfl, taken]
      dsimp only
      rw [scanned, List.append_assoc]
      rfl

/-- Envelopes are recognised exactly. What is returned lies in the script one after another,
and is numbered in this order; what stands in the clear is returned, and nothing else. -/
theorem envelopes_exact (env : Env) (tapscript : Bytes) (input : Nat)
    (script : List Instruction) (sound : env.instructions tapscript = script.map some) :
    (∃ (runs : List (List Instruction)) (envelopes : List RawEnvelope),
      fromTapscript env tapscript input = some envelopes ∧
      Layout (fun _ => True) runs script ∧ List.Forall₂ Matches runs envelopes ∧
      ∀ (index : Nat) (envelope : RawEnvelope), envelopes[index]? = some envelope →
        envelope.offset = index) ∧
    ∀ runs, Layout (· ≠ .pushBytes []) runs script →
      (∀ run ∈ runs, ∃ values : List Bytes, run.map Instruction.pushed = values.map some) →
      ∃ envelopes, fromTapscript env tapscript input = some envelopes ∧
        List.Forall₂ Matches runs envelopes := by
  rw [fromTapscript, sound, List.length_map]
  refine ⟨?_, ?_⟩
  · obtain ⟨runs, new, scanned, layout, paired, numbered⟩ :=
      scan_sound input (Nat.le_refl script.length) [] false
    refine ⟨runs, new, scanned, layout, paired, ?_⟩
    intro index envelope found
    have number := numbered index envelope found
    rwa [List.length_nil, Nat.zero_add] at number
  · intro runs layout valued
    exact scan_complete input layout valued (Nat.le_refl _) [] false

theorem pushnum_found : ∃ envelope : RawEnvelope,
    fromTapscript (.ofRecords .wojakcoin .bellscoin [])
      ([0x75, 0x00, 0x63, 0x03] ++ protocolId ++ [0x51, 0x68]) 0 = some [envelope] ∧
      envelope.payload = [[1]] := by
  have layout : Layout (· ≠ .pushBytes []) [[.op 0x51]]
      ([.op 0x75] ++ enveloped [.op 0x51] ++ []) :=
    .envelope (by simp) (.rest (by simp))
  have found := (envelopes_exact (.ofRecords .wojakcoin .bellscoin [])
    ([0x75, 0x00, 0x63, 0x03] ++ protocolId ++ [0x51, 0x68]) 0 _ (by decide +kernel)).2 _ layout
  obtain ⟨envelopes, returned, paired⟩ := found (by
    intro run listed
    rw [List.mem_singleton.mp listed]
    exact ⟨[[1]], rfl⟩)
  cases paired with
  | @cons _ envelope _ _ valued rest =>
      cases rest
      refine ⟨envelope, returned, ?_⟩
      have payload : [[1]].map some = envelope.payload.map some := valued
      exact (List.map_injective_iff.mpr (Option.some_injective _) payload).symm

end WjkIndexer
