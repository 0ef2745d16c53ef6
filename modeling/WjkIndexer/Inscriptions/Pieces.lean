import WjkIndexer.Inscriptions.Envelope

/-!
Inscriptions in pieces: a body that is counted down over the scripts of several transactions
comes together in whatever way it is cut.
-/

namespace WjkIndexer

open InscriptionParser

/-- Pairs of a counter and a piece that count down. -/
inductive Countdown : Nat → List (Bytes × Bytes) → Nat → Prop where
  | done (left : Nat) : Countdown left [] left
  | next {left rest : Nat} {number piece : Bytes} {pairs : List (Bytes × Bytes)}
      (counter : pushDataToNumber number = some left) (more : Countdown left pairs rest) :
      Countdown (left + 1) ((number, piece) :: pairs) rest

structure Cut where
  pairs : List (Bytes × Bytes)
  after : List Bytes

namespace Cut

def pushes (cut : Cut) : List Bytes :=
  (cut.pairs.flatMap fun pair => [pair.1, pair.2]) ++ cut.after

def pieces (cut : Cut) : List Bytes := cut.pairs.map Prod.snd

end Cut

def Stops (left : Nat) : List Bytes → Prop
  | number :: _ :: _ => pushDataToNumber number ≠ some (left - 1)
  | _ => True

inductive Continues : Nat → List Cut → Prop where
  | last {left : Nat} {cut : Cut} (countdown : Countdown left cut.pairs 0) : Continues left [cut]
  | more {left rest : Nat} {cut next : Cut} {cuts : List Cut}
      (countdown : Countdown left cut.pairs rest) (stops : Stops rest cut.after)
      (carries : next.pairs ≠ []) (others : Continues rest (next :: cuts)) :
      Continues left (cut :: next :: cuts)

def Carries (script : Bytes) (cut : Cut) : Prop := decodePushDatas script = some cut.pushes

inductive SpreadOver (contentType : Bytes) (pieces : List Bytes) : List Bytes → Prop where
  | scripts {count script : Bytes} {scripts : List Bytes} {cut : Cut} {cuts : List Cut}
      (begins : decodePushDatas script =
        some (protocolId :: count :: contentType :: cut.pushes))
      (counts : pushDataToNumber count = some pieces.length) (nonempty : pieces ≠ [])
      (later : List.Forall₂ Carries scripts cuts)
      (continues : Continues pieces.length (cut :: cuts))
      (body : (cut :: cuts).flatMap Cut.pieces = pieces) :
      SpreadOver contentType pieces (script :: scripts)

def ofPieces (contentType : Bytes) (pieces : List Bytes) : Inscription where
  contentType := some contentType
  body := some pieces.flatten

theorem Countdown.length {left rest : Nat} {pairs : List (Bytes × Bytes)}
    (countdown : Countdown left pairs rest) : left = rest + pairs.length := by
  induction countdown with
  | done left => rfl
  | next counter more ih =>
      rw [List.length_cons]
      omega

theorem Continues.pieces_length {left : Nat} {cuts : List Cut} (continues : Continues left cuts) :
    (cuts.flatMap Cut.pieces).length = left := by
  induction continues with
  | last countdown =>
      have length := countdown.length
      simp [Cut.pieces]
      omega
  | more countdown stops carries others ih =>
      have length := countdown.length
      rw [List.flatMap_cons, List.length_append, ih, Cut.pieces, List.length_map]
      omega

/-! One script. -/

theorem readChunks_stop {left : Nat} {pushes : List Bytes} (stops : Stops left pushes)
    (body : Bytes) : readChunks left pushes body = (left, body) := by
  cases left with
  | zero => simp [readChunks]
  | succ left =>
      match pushes, stops with
      | [], _ => rfl
      | [_], _ => rfl
      | number :: piece :: rest, stops =>
          have other : pushDataToNumber number ≠ some left := stops
          rw [readChunks, if_neg other]

theorem readChunks_cut {left rest : Nat} {cut : Cut} (countdown : Countdown left cut.pairs rest)
    (ends : rest = 0 ∨ Stops rest cut.after) (body : Bytes) :
    readChunks left cut.pushes body = (rest, body ++ cut.pieces.flatten) := by
  obtain ⟨pairs, after⟩ := cut
  simp only [Cut.pushes, Cut.pieces] at countdown ends ⊢
  induction countdown generalizing body with
  | done left =>
      rcases ends with rfl | stops
      · simp [readChunks]
      · simp [readChunks_stop stops]
  | @next left rest number piece pairs counter more ih =>
      have step := ih (body ++ piece) ends
      simp only [List.flatMap_cons, List.cons_append, List.nil_append]
      rw [readChunks, if_pos counter, step]
      simp

theorem countdown_of (left : Nat) (pushes : List Bytes) :
    ∃ (cut : Cut) (rest : Nat), pushes = cut.pushes ∧ Countdown left cut.pairs rest ∧
      (rest = 0 ∨ Stops rest cut.after) := by
  induction left generalizing pushes with
  | zero => exact ⟨⟨[], pushes⟩, 0, rfl, .done 0, Or.inl rfl⟩
  | succ left ih =>
      match pushes with
      | [] => exact ⟨⟨[], []⟩, left + 1, rfl, .done _, Or.inr trivial⟩
      | [single] => exact ⟨⟨[], [single]⟩, left + 1, rfl, .done _, Or.inr trivial⟩
      | number :: piece :: others =>
          by_cases counter : pushDataToNumber number = some left
          · obtain ⟨cut, rest, same, countdown, ends⟩ := ih others
            refine ⟨⟨(number, piece) :: cut.pairs, cut.after⟩, rest, ?_, .next counter countdown,
              ends⟩
            rw [same]
            rfl
          · exact ⟨⟨[], number :: piece :: others⟩, left + 1, rfl, .done _, Or.inr counter⟩

/-! All scripts. -/

theorem readScripts_cut {contentType : Bytes} {left rest : Nat} {cut : Cut}
    (countdown : Countdown left cut.pairs rest) (ends : rest = 0 ∨ Stops rest cut.after)
    (scripts : List Bytes) (body : Bytes) :
    readScripts contentType scripts left cut.pushes body =
      if rest = 0 then
        .single { contentType := some contentType, body := some (body ++ cut.pieces.flatten) }
      else
        match scripts with
        | [] => .partialInscription
        | script :: others =>
            match decodePushDatas script with
            | some (number :: piece :: more) =>
                if pushDataToNumber number = some (rest - 1) then
                  readScripts contentType others rest (number :: piece :: more)
                    (body ++ cut.pieces.flatten)
                else .none
            | _ => .none := by
  have chunks := readChunks_cut countdown ends body
  cases scripts with
  | nil =>
      rw [readScripts]
      generalize readChunks left cut.pushes body = chunk at chunks ⊢
      subst chunks
      rfl
  | cons script others =>
      rw [readScripts]
      generalize readChunks left cut.pushes body = chunk at chunks ⊢
      subst chunks
      rfl

theorem Continues.head {left : Nat} {cut : Cut} {cuts : List Cut}
    (continues : Continues left (cut :: cuts)) (carries : cut.pairs ≠ []) :
    0 < left ∧ ∃ number piece others, cut.pushes = number :: piece :: others ∧
      pushDataToNumber number = some (left - 1) := by
  have counted : ∃ rest, Countdown left cut.pairs rest := by
    cases continues with
    | last countdown => exact ⟨0, countdown⟩
    | more countdown stops carries others => exact ⟨_, countdown⟩
  obtain ⟨pairs, after⟩ := cut
  obtain ⟨rest, countdown⟩ := counted
  cases countdown with
  | done => exact absurd rfl carries
  | next counter more => exact ⟨Nat.succ_pos _, _, _, _, rfl, counter⟩

theorem readScripts_whole {contentType : Bytes} {cuts : List Cut} {left : Nat} {cut : Cut}
    (continues : Continues left (cut :: cuts)) {scripts : List Bytes}
    (later : List.Forall₂ Carries scripts cuts) (more : List Bytes) (body : Bytes) :
    readScripts contentType (scripts ++ more) left cut.pushes body = .single {
      contentType := some contentType
      body := some (body ++ ((cut :: cuts).flatMap Cut.pieces).flatten) } := by
  induction cuts generalizing left cut scripts body with
  | nil =>
      cases continues with
      | last countdown =>
          rw [readScripts_cut countdown (Or.inl rfl), if_pos rfl]
          simp
  | cons next rest ih =>
      cases later with
      | @cons script _ others _ first later =>
          cases continues with
          | more countdown stops carries carried =>
              obtain ⟨positive, number, piece, pushes, shape, counter⟩ := carried.head carries
              have read := ih carried later (body ++ cut.pieces.flatten)
              rw [Carries, shape] at first
              rw [shape] at read
              rw [readScripts_cut countdown (Or.inr stops), if_neg (by omega), List.cons_append]
              simp only [first, counter, if_true]
              rw [read]
              simp

theorem readScripts_part {contentType : Bytes} {cuts : List Cut} {left : Nat} {cut : Cut}
    (continues : Continues left (cut :: cuts)) {scripts : List Bytes}
    (later : List.Forall₂ Carries scripts cuts) {few : Nat} (fewer : few < scripts.length)
    (body : Bytes) :
    readScripts contentType (scripts.take few) left cut.pushes body = .partialInscription := by
  induction cuts generalizing left cut scripts body few with
  | nil =>
      cases later
      cases fewer
  | cons next rest ih =>
      cases later with
      | @cons script _ others _ first later =>
          cases continues with
          | more countdown stops carries carried =>
              obtain ⟨positive, number, piece, pushes, shape, counter⟩ := carried.head carries
              cases few with
              | zero =>
                  rw [List.take_zero, readScripts_cut countdown (Or.inr stops),
                    if_neg (by omega)]
              | succ few =>
                  rw [List.length_cons] at fewer
                  have read := ih carried later (show few < others.length by omega)
                    (body ++ cut.pieces.flatten)
                  rw [Carries, shape] at first
                  rw [shape] at read
                  rw [List.take_succ_cons, readScripts_cut countdown (Or.inr stops),
                    if_neg (by omega)]
                  simp only [first, counter, if_true]
                  exact read

theorem readScripts_single {contentType : Bytes} {scripts : List Bytes} {left : Nat}
    {pushes : List Bytes} {body : Bytes} {inscription : Inscription}
    (read : readScripts contentType scripts left pushes body = .single inscription) :
    ∃ (cut : Cut) (cuts : List Cut) (front back : List Bytes), pushes = cut.pushes ∧
      scripts = front ++ back ∧ List.Forall₂ Carries front cuts ∧
      Continues left (cut :: cuts) ∧
      inscription = {
        contentType := some contentType
        body := some (body ++ ((cut :: cuts).flatMap Cut.pieces).flatten) } := by
  induction scripts generalizing left pushes body with
  | nil =>
      obtain ⟨cut, rest, rfl, countdown, ends⟩ := countdown_of left pushes
      rw [readScripts_cut countdown ends] at read
      by_cases finished : rest = 0
      · subst finished
        rw [if_pos rfl] at read
        cases read
        exact ⟨cut, [], [], [], rfl, rfl, .nil, .last countdown, by simp⟩
      · rw [if_neg finished] at read
        cases read
  | cons script others ih =>
      obtain ⟨cut, rest, rfl, countdown, ends⟩ := countdown_of left pushes
      rw [readScripts_cut countdown ends] at read
      by_cases finished : rest = 0
      · subst finished
        rw [if_pos rfl] at read
        cases read
        exact ⟨cut, [], [], script :: others, rfl, rfl, .nil, .last countdown, by simp⟩
      · rw [if_neg finished] at read
        dsimp only at read
        split at read
        · rename_i number piece more decoded
          split at read
          · rename_i counter
            obtain ⟨next, cuts, front, back, shape, rfl, later, continues, rfl⟩ := ih read
            refine ⟨cut, next :: cuts, script :: front, back, rfl, rfl, .cons ?_ later, ?_, ?_⟩
            · rw [Carries, decoded, shape]
            · refine .more countdown (ends.resolve_left finished) ?_ continues
              -- a countdown without a pair here would stop at the counter it expects
              intro empty
              have stops : Stops rest next.after ∨ rest = 0 := by
                cases continues with
                | last counted =>
                    rw [empty] at counted
                    cases counted
                    exact Or.inr rfl
                | more counted stops _ _ =>
                    rw [empty] at counted
                    cases counted
                    exact Or.inl stops
              rw [Cut.pushes, empty, List.flatMap_nil, List.nil_append] at shape
              rcases stops with stops | zero
              · rw [← shape] at stops
                exact stops counter
              · exact finished zero
            · simp
          · cases read
        · cases read

theorem readScripts_none {contentType : Bytes} {scripts : List Bytes} {left : Nat}
    {pushes : List Bytes} {body : Bytes}
    (unread : readScripts contentType scripts left pushes body = .none) (more : List Bytes) :
    readScripts contentType (scripts ++ more) left pushes body = .none := by
  induction scripts generalizing left pushes body with
  | nil =>
      obtain ⟨cut, rest, rfl, countdown, ends⟩ := countdown_of left pushes
      rw [readScripts_cut countdown ends] at unread
      split at unread <;> cases unread
  | cons script others ih =>
      obtain ⟨cut, rest, rfl, countdown, ends⟩ := countdown_of left pushes
      rw [readScripts_cut countdown ends] at unread
      rw [List.cons_append, readScripts_cut countdown ends]
      by_cases finished : rest = 0
      · rw [if_pos finished] at unread
        cases unread
      · rw [if_neg finished] at unread ⊢
        dsimp only at unread ⊢
        split
        · rename_i number piece remaining decoded
          rw [decoded] at unread
          dsimp only at unread
          split
          · rename_i counter
            rw [if_pos counter] at unread
            exact ih unread
          · rfl
        · rfl

/-! Whole inscriptions. -/

theorem parse_begins {count script contentType : Bytes} {pushes : List Bytes} {npieces : Nat}
    (begins : decodePushDatas script = some (protocolId :: count :: contentType :: pushes))
    (counts : pushDataToNumber count = some npieces) (nonempty : npieces ≠ 0)
    (rest : List Bytes) :
    parse (script :: rest) = readScripts contentType rest npieces pushes [] := by
  rw [parse]
  simp only [begins, counts, nonempty, ne_eq, not_true, if_false]

theorem parse_spread {contentType : Bytes} {pieces scripts : List Bytes}
    (spread : SpreadOver contentType pieces scripts) (more : List Bytes) :
    parse (scripts ++ more) = .single (ofPieces contentType pieces) := by
  cases spread with
  | scripts begins counts nonempty later continues body =>
      have many : pieces.length ≠ 0 := mt List.length_eq_zero_iff.mp nonempty
      rw [List.cons_append, parse_begins begins counts many,
        readScripts_whole continues later more, body]
      rfl

theorem parse_part {contentType : Bytes} {pieces scripts : List Bytes}
    (spread : SpreadOver contentType pieces scripts) {few : Nat} (positive : 0 < few)
    (fewer : few < scripts.length) : parse (scripts.take few) = .partialInscription := by
  cases spread with
  | scripts begins counts nonempty later continues body =>
      have many : pieces.length ≠ 0 := mt List.length_eq_zero_iff.mp nonempty
      cases few with
      | zero => cases positive
      | succ few =>
          rw [List.length_cons] at fewer
          rw [List.take_succ_cons, parse_begins begins counts many]
          exact readScripts_part continues later (by omega) []

theorem parse_cons (script : Bytes) (rest : List Bytes) :
    (∃ count contentType pushes npieces,
      decodePushDatas script = some (protocolId :: count :: contentType :: pushes) ∧
      pushDataToNumber count = some npieces ∧ npieces ≠ 0 ∧
      parse (script :: rest) = readScripts contentType rest npieces pushes []) ∨
    ∀ others, parse (script :: others) = .none := by
  cases decoded : decodePushDatas script with
  | none => exact Or.inr fun others => by simp [parse, decoded]
  | some pushes =>
      match pushes with
      | [] => exact Or.inr fun others => by simp [parse, decoded]
      | [_] => exact Or.inr fun others => by simp [parse, decoded]
      | [_, _] => exact Or.inr fun others => by simp [parse, decoded]
      | protocol :: count :: contentType :: pushes =>
          by_cases known : protocol = protocolId
          · subst known
            cases counted : pushDataToNumber count with
            | none => exact Or.inr fun others => by simp [parse, decoded, counted]
            | some npieces =>
                by_cases none : npieces = 0
                · exact Or.inr fun others => by simp [parse, decoded, counted, none]
                · exact Or.inl ⟨count, contentType, pushes, npieces, rfl, counted, none,
                    parse_begins decoded counted none rest⟩
          · exact Or.inr fun others => by simp [parse, decoded, known]

theorem parse_single {scripts : List Bytes} {inscription : Inscription}
    (read : parse scripts = .single inscription) :
    ∃ contentType pieces front back, scripts = front ++ back ∧
      SpreadOver contentType pieces front ∧ inscription = ofPieces contentType pieces := by
  cases scripts with
  | nil => cases read
  | cons script rest =>
      rcases parse_cons script rest with
        ⟨count, contentType, pushes, npieces, begins, counts, nonempty, same⟩ | unread
      · rw [same] at read
        obtain ⟨cut, cuts, front, back, rfl, rfl, later, continues, rfl⟩ := readScripts_single read
        have length := continues.pieces_length
        refine ⟨contentType, (cut :: cuts).flatMap Cut.pieces, script :: front, back, rfl, ?_, rfl⟩
        refine .scripts begins (by rw [length]; exact counts) ?_ later
          (by rw [length]; exact continues) rfl
        intro empty
        rw [empty] at length
        exact nonempty length.symm
      · rw [unread] at read
        cases read

theorem parse_none {scripts : List Bytes} (nonempty : scripts ≠ []) (unread : parse scripts = .none)
    (more : List Bytes) : parse (scripts ++ more) = .none := by
  cases scripts with
  | nil => exact absurd rfl nonempty
  | cons script rest =>
      rcases parse_cons script rest with
        ⟨count, contentType, pushes, npieces, begins, counts, nonempty, same⟩ | never
      · rw [same] at unread
        rw [List.cons_append, parse_begins begins counts nonempty]
        exact readScripts_none unread more
      · exact never _

def SignatureParts (parts : List Part) : Prop := ∀ part ∈ parts, part.isTapscript = false

theorem fromParts_signature (env : Env) {parts : List Part} (signature : SignatureParts parts)
    (vin : Nat) :
    Inscription.fromParts env parts vin = parse (parts.map Part.scriptBuffer) := by
  unfold Inscription.fromParts
  split
  · rename_i part
    rw [if_neg (by simp [signature part (List.mem_singleton_self part)])]
  · rfl

/-- Only a part that stands alone is read as a tapscript. -/
theorem fromParts_append (env : Env) {parts : List Part} (nonempty : parts ≠ [])
    (signature : SignatureParts parts) (more : List Part) (vin : Nat) :
    Inscription.fromParts env (parts ++ more) vin =
      parse (parts.map Part.scriptBuffer ++ more.map Part.scriptBuffer) := by
  rw [← List.map_append]
  cases more with
  | nil =>
      rw [List.append_nil]
      exact fromParts_signature env signature vin
  | cons next rest =>
      cases parts with
      | nil => exact absurd rfl nonempty
      | cons part others =>
          cases others <;> rfl

/-- An inscription in pieces is reassembled however it is cut: partial until its last script,
and then the same for ever. Nothing else is an inscription, and what is none stays none. -/
theorem pieces_reassembled (env : Env) (vin : Nat) :
    (∀ contentType pieces parts, SignatureParts parts →
      SpreadOver contentType pieces (parts.map Part.scriptBuffer) →
      (∀ few, 0 < few → few < parts.length →
        Inscription.fromParts env (parts.take few) vin = .partialInscription) ∧
      ∀ more,
        Inscription.fromParts env (parts ++ more) vin = .single (ofPieces contentType pieces)) ∧
    (∀ parts inscription, SignatureParts parts →
      Inscription.fromParts env parts vin = .single inscription →
      ∃ contentType pieces front back, parts = front ++ back ∧
        SpreadOver contentType pieces (front.map Part.scriptBuffer) ∧
        inscription = ofPieces contentType pieces) ∧
    ∀ parts more, parts ≠ [] → SignatureParts parts →
      Inscription.fromParts env parts vin = .none →
      Inscription.fromParts env (parts ++ more) vin = .none := by
  refine ⟨?_, ?_, ?_⟩
  · intro contentType pieces parts signature spread
    refine ⟨?_, ?_⟩
    · intro few positive fewer
      have front : SignatureParts (parts.take few) :=
        fun part listed => signature part (List.mem_of_mem_take listed)
      rw [fromParts_signature env front, List.map_take]
      exact parse_part spread positive (by simpa using fewer)
    · intro more
      have nonempty : parts ≠ [] := by
        rintro rfl
        cases spread
      rw [fromParts_append env nonempty signature]
      exact parse_spread spread _
  · intro parts inscription signature read
    rw [fromParts_signature env signature] at read
    obtain ⟨contentType, pieces, front, back, shape, spread, same⟩ := parse_single read
    obtain ⟨first, second, rfl, rfl, rfl⟩ := List.map_eq_append_iff.mp shape
    exact ⟨contentType, pieces, first, second, rfl, spread, same⟩
  · intro parts more nonempty signature unread
    rw [fromParts_signature env signature] at unread
    rw [fromParts_append env nonempty signature]
    exact parse_none (by simpa using nonempty) unread _

namespace Sample

/-- The text `xy` in two pieces over two scripts. -/
def inPieces : List Part := [
  { isTapscript := false
    scriptBuffer := [3] ++ protocolId ++ [0x52, 1, 0x61, 0x51, 1, 0x78] },
  { isTapscript := false, scriptBuffer := [0, 1, 0x79] }]

end Sample

theorem inPieces_reassembled :
    Inscription.fromParts (.ofRecords .wojakcoin .bellscoin []) (Sample.inPieces.take 1) 0 =
        .partialInscription ∧
      Inscription.fromParts (.ofRecords .wojakcoin .bellscoin []) Sample.inPieces 0 =
        .single (ofPieces [0x61] [[0x78], [0x79]]) := by
  have signature : SignatureParts Sample.inPieces := by
    intro part listed
    simp only [Sample.inPieces, List.mem_cons, List.not_mem_nil, or_false] at listed
    rcases listed with rfl | rfl <;> rfl
  have second : decodePushDatas [0, 1, 0x79] = some [[], [0x79]] := by decide +kernel
  have spread : SpreadOver [0x61] [[0x78], [0x79]] (Sample.inPieces.map Part.scriptBuffer) :=
    @SpreadOver.scripts [0x61] [[0x78], [0x79]] [2] _ _ ⟨[([1], [0x78])], []⟩
      [⟨[([], [0x79])], []⟩] (by decide +kernel) (by decide +kernel) (by decide)
      (.cons second .nil)
      (.more (.next (by decide +kernel) (.done 1)) trivial (by decide)
        (.last (.next (by decide +kernel) (.done 0)))) rfl
  obtain ⟨parts, whole⟩ :=
    (pieces_reassembled (.ofRecords .wojakcoin .bellscoin []) 0).1 _ _ Sample.inPieces signature
      spread
  exact ⟨parts 1 (by decide) (by decide), whole []⟩

end WjkIndexer
