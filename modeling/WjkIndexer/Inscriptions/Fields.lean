import WjkIndexer.Inscriptions.Envelope

/-!
The fields of an envelope: a payload that is written from tags, values and a body is read
back as what was written.
-/

namespace WjkIndexer

def payloadOf (pairs : Tag.Fields) (chunks : Option (List Bytes)) : List Bytes :=
  (pairs.flatMap fun pair => [pair.1, pair.2]) ++
    match chunks with
    | none => []
    | some chunks => [] :: chunks

def valuesFor (tag : Bytes) (pairs : Tag.Fields) : List Bytes :=
  (pairs.filter fun pair => pair.1 == tag).map Prod.snd

/-- The values of a tag that are left over when the known fields have been taken: the first
one is taken of most tags, all of those that are joined or listed. -/
def leftFor (tag : Bytes) (pairs : Tag.Fields) : List Bytes :=
  if tag = [Tag.metadata.byte] ∨ tag = [Tag.parent.byte] then []
  else if tag ∈ [Tag.contentEncoding, .contentType, .delegate, .metaprotocol, .pointer,
      .rune].map (fun known => [known.byte]) then (valuesFor tag pairs).drop 1
  else valuesFor tag pairs

/-- An inscription holds what was written in tags, values and chunks. -/
structure ReadBack (pairs : Tag.Fields) (chunks : Option (List Bytes))
    (inscription : Inscription) : Prop where
  body : inscription.body = chunks.map List.flatten
  contentType : inscription.contentType = (valuesFor [Tag.contentType.byte] pairs).head?
  contentEncoding :
    inscription.contentEncoding = (valuesFor [Tag.contentEncoding.byte] pairs).head?
  delegate : inscription.delegate = (valuesFor [Tag.delegate.byte] pairs).head?
  metaprotocol : inscription.metaprotocol = (valuesFor [Tag.metaprotocol.byte] pairs).head?
  pointer : inscription.pointer = (valuesFor [Tag.pointer.byte] pairs).head?
  rune : inscription.rune = (valuesFor [Tag.rune.byte] pairs).head?
  metadata : inscription.metadata =
    if valuesFor [Tag.metadata.byte] pairs = [] then none
    else some (valuesFor [Tag.metadata.byte] pairs).flatten
  parents : inscription.parents = valuesFor [Tag.parent.byte] pairs
  duplicateField : inscription.duplicateField = true ↔
    ∃ tag, 2 ≤ (valuesFor tag pairs).length
  incompleteField : inscription.incompleteField = false
  unrecognizedEvenField : inscription.unrecognizedEvenField = true ↔
    ∃ tag lsb, tag.head? = some lsb ∧ lsb % 2 = 0 ∧ leftFor tag pairs ≠ []

namespace RawEnvelope

theorem bodyStart_pairs {pairs : Tag.Fields} (named : ∀ pair ∈ pairs, pair.1 ≠ [])
    (rest : List Bytes) :
    bodyStart ((pairs.flatMap fun pair => [pair.1, pair.2]) ++ rest) =
      (bodyStart rest).map (· + 2 * pairs.length) := by
  induction pairs with
  | nil => simp
  | cons pair pairs ih =>
      have first := named pair List.mem_cons_self
      have later := ih fun other listed => named other (List.mem_cons_of_mem _ listed)
      simp only [List.flatMap_cons, List.cons_append, List.nil_append, bodyStart, first, if_false,
        later, Option.map_map, List.length_cons]
      congr 1

theorem fieldsOf_pairs (pairs : Tag.Fields) (rest : List Bytes) :
    fieldsOf ((pairs.flatMap fun pair => [pair.1, pair.2]) ++ rest) =
      (pairs ++ (fieldsOf rest).1, (fieldsOf rest).2) := by
  induction pairs with
  | nil => rfl
  | cons pair pairs ih =>
      simp only [List.flatMap_cons, List.cons_append, List.nil_append, fieldsOf, ih]

theorem length_pairs (pairs : Tag.Fields) :
    (pairs.flatMap fun pair => [pair.1, pair.2]).length = 2 * pairs.length := by
  induction pairs with
  | nil => rfl
  | cons pair pairs ih =>
      simp only [List.flatMap_cons, List.length_append, List.length_cons, List.length_nil, ih]
      omega

end RawEnvelope

namespace Tag

theorem valuesFor_cons (query : Bytes) (pair : Bytes × Bytes) (pairs : Fields) :
    valuesFor query (pair :: pairs) =
      if pair.1 = query then pair.2 :: valuesFor query pairs else valuesFor query pairs := by
  simp only [valuesFor, List.filter_cons, beq_iff_eq]
  split <;> rfl

theorem valuesFor_without (tag : Tag) (pairs : Fields) (query : Bytes) :
    valuesFor query (tag.without pairs) =
      if query = [tag.byte] then [] else valuesFor query pairs := by
  induction pairs with
  | nil => simp [without, valuesFor]
  | cons pair pairs ih =>
      by_cases own : pair.1 = [tag.byte]
      · have dropped : tag.without (pair :: pairs) = tag.without pairs := by simp [without, own]
        rw [dropped, ih, valuesFor_cons, own]
        by_cases same : query = [tag.byte]
        · rw [if_pos same, if_pos same]
        · rw [if_neg same, if_neg same, if_neg (Ne.symm same)]
      · have stays : tag.without (pair :: pairs) = pair :: tag.without pairs := by
          simp [without, own]
        rw [stays, valuesFor_cons, valuesFor_cons, ih]
        by_cases same : query = [tag.byte]
        · rw [if_pos same, if_pos same, if_neg (same ▸ own)]
        · rw [if_neg same, if_neg same]

theorem valuesFor_erased (tag : Tag) (pairs : Fields) (query : Bytes) :
    valuesFor query (pairs.eraseP fun field => field.1 == [tag.byte]) =
      if query = [tag.byte] then (valuesFor query pairs).drop 1 else valuesFor query pairs := by
  induction pairs with
  | nil => simp [valuesFor]
  | cons pair pairs ih =>
      by_cases own : pair.1 = [tag.byte]
      · rw [List.eraseP_cons_of_pos (by simp [own]), valuesFor_cons, own]
        by_cases same : query = [tag.byte]
        · rw [if_pos same, if_pos same.symm, List.drop_succ_cons, List.drop_zero]
        · rw [if_neg same, if_neg (Ne.symm same)]
      · rw [List.eraseP_cons_of_neg (by simp [own]), valuesFor_cons, valuesFor_cons, ih]
        by_cases same : query = [tag.byte]
        · have other : pair.1 ≠ query := same ▸ own
          rw [if_neg other, if_neg other]
        · rw [if_neg same, if_neg same]

theorem take_fst (tag : Tag) (pairs : Fields) :
    (tag.take pairs).1 = if tag.chunked then
        if valuesFor [tag.byte] pairs = [] then none else some (valuesFor [tag.byte] pairs).flatten
      else (valuesFor [tag.byte] pairs).head? := by
  rw [take]
  change _ = if tag.chunked then if tag.valuesOf pairs = [] then none
    else some (tag.valuesOf pairs).flatten else (tag.valuesOf pairs).head?
  cases values : tag.valuesOf pairs with
  | nil => simp
  | cons value rest => cases tag.chunked <;> simp

theorem valuesFor_take (tag : Tag) (pairs : Fields) (query : Bytes) :
    valuesFor query (tag.take pairs).2 =
      if query = [tag.byte] then
        if tag.chunked then [] else (valuesFor query pairs).drop 1
      else valuesFor query pairs := by
  rw [take]
  cases values : tag.valuesOf pairs with
  | nil =>
      have absent : valuesFor [tag.byte] pairs = [] := values
      dsimp only
      by_cases same : query = [tag.byte]
      · rw [if_pos same, same, absent]
        simp
      · rw [if_neg same]
  | cons value rest =>
      cases chunked : tag.chunked with
      | true => simpa [chunked] using valuesFor_without tag pairs query
      | false => simpa [chunked] using valuesFor_erased tag pairs query

theorem any_even (pairs : Fields) :
    (pairs.any fun field => field.1.head?.any fun lsb => lsb % 2 == 0) = true ↔
      ∃ tag lsb, tag.head? = some lsb ∧ lsb % 2 = 0 ∧ valuesFor tag pairs ≠ [] := by
  simp only [List.any_eq_true, Option.any_eq_true, beq_iff_eq, valuesFor, ne_eq,
    List.map_eq_nil_iff, List.filter_eq_nil_iff, not_forall, not_not]
  constructor
  · rintro ⟨field, listed, lsb, first, even⟩
    exact ⟨field.1, lsb, first, even, field, listed, rfl⟩
  · rintro ⟨tag, lsb, first, even, field, listed, rfl⟩
    exact ⟨field, listed, lsb, first, even⟩

theorem duplicate_iff (pairs : Fields) :
    (!decide (pairs.map Prod.fst).Nodup) = true ↔ ∃ tag, 2 ≤ (valuesFor tag pairs).length := by
  have count : ∀ tag, (valuesFor tag pairs).length = (pairs.map Prod.fst).count tag := by
    intro tag
    rw [valuesFor, List.length_map, ← List.countP_eq_length_filter, List.count, List.countP_map]
    rfl
  simp only [Bool.not_eq_true', decide_eq_false_iff_not, List.nodup_iff_count_le_one, not_forall,
    not_le, count]
  rfl

end Tag

namespace RawEnvelope

def ofFields (pairs : Tag.Fields) (incompleteField : Bool) (body : Option Bytes) : Inscription :=
  let (contentEncoding, fields) := Tag.contentEncoding.take pairs
  let (contentType, fields) := Tag.contentType.take fields
  let (delegate, fields) := Tag.delegate.take fields
  let (metadata, fields) := Tag.metadata.take fields
  let (metaprotocol, fields) := Tag.metaprotocol.take fields
  let (parents, fields) := Tag.parent.takeArray fields
  let (pointer, fields) := Tag.pointer.take fields
  let (rune, fields) := Tag.rune.take fields
  { body
    contentEncoding
    contentType
    delegate
    duplicateField := !decide (pairs.map Prod.fst).Nodup
    incompleteField
    metadata
    metaprotocol
    parents
    pointer
    rune
    unrecognizedEvenField := fields.any fun field =>
      (field.1.head?).any fun lsb => lsb % 2 == 0 }

theorem parse_eq (envelope : RawEnvelope) :
    envelope.parse = ofFields
      (fieldsOf (envelope.payload.take
        ((bodyStart envelope.payload).getD envelope.payload.length))).1
      (fieldsOf (envelope.payload.take
        ((bodyStart envelope.payload).getD envelope.payload.length))).2
      ((bodyStart envelope.payload).map fun start =>
        (envelope.payload.drop (start + 1)).flatten) := rfl

theorem taken_first {tag : Tag} {pairs rest : Tag.Fields} {value : Option Bytes}
    (taken : tag.take pairs = (value, rest)) (single : tag.chunked = false) :
    value = (valuesFor [tag.byte] pairs).head? ∧ ∀ query, valuesFor query rest =
      if query = [tag.byte] then (valuesFor query pairs).drop 1 else valuesFor query pairs := by
  have first := tag.take_fst pairs
  have left := tag.valuesFor_take pairs
  rw [taken, single] at first left
  exact ⟨first, left⟩

theorem taken_all {tag : Tag} {pairs rest : Tag.Fields} {value : Option Bytes}
    (taken : tag.take pairs = (value, rest)) (chunked : tag.chunked = true) :
    (value = if valuesFor [tag.byte] pairs = [] then none
      else some (valuesFor [tag.byte] pairs).flatten) ∧ ∀ query, valuesFor query rest =
      if query = [tag.byte] then [] else valuesFor query pairs := by
  have first := tag.take_fst pairs
  have left := tag.valuesFor_take pairs
  rw [taken, chunked] at first left
  exact ⟨first, left⟩

theorem ofFields_incomplete (pairs : Tag.Fields) (body : Option Bytes) :
    ofFields pairs true body = { ofFields pairs false body with incompleteField := true } := by
  rw [ofFields, ofFields]

theorem ofFields_readBack (pairs : Tag.Fields) (chunks : Option (List Bytes)) :
    ReadBack pairs chunks (ofFields pairs false (chunks.map List.flatten)) := by
  rw [ofFields]
  generalize encodingTaken : Tag.contentEncoding.take pairs = result
  obtain ⟨contentEncoding, fields₁⟩ := result
  obtain ⟨encoding, left₁⟩ := taken_first encodingTaken rfl
  dsimp only
  generalize typeTaken : Tag.contentType.take fields₁ = result
  obtain ⟨contentType, fields₂⟩ := result
  obtain ⟨type, left₂⟩ := taken_first typeTaken rfl
  dsimp only
  generalize delegateTaken : Tag.delegate.take fields₂ = result
  obtain ⟨delegate, fields₃⟩ := result
  obtain ⟨delegated, left₃⟩ := taken_first delegateTaken rfl
  dsimp only
  generalize metadataTaken : Tag.metadata.take fields₃ = result
  obtain ⟨metadata, fields₄⟩ := result
  obtain ⟨joined, left₄⟩ := taken_all metadataTaken rfl
  dsimp only
  generalize protocolTaken : Tag.metaprotocol.take fields₄ = result
  obtain ⟨metaprotocol, fields₅⟩ := result
  obtain ⟨protocol, left₅⟩ := taken_first protocolTaken rfl
  dsimp only
  have parents : (Tag.parent.takeArray fields₅).1 = valuesFor [Tag.parent.byte] fields₅ := rfl
  have left₆ := Tag.valuesFor_without Tag.parent fields₅
  change ∀ query, valuesFor query (Tag.parent.takeArray fields₅).2 = _ at left₆
  generalize Tag.parent.takeArray fields₅ = result at parents left₆ ⊢
  obtain ⟨parentValues, fields₆⟩ := result
  dsimp only at parents left₆ ⊢
  generalize pointerTaken : Tag.pointer.take fields₆ = result
  obtain ⟨pointer, fields₇⟩ := result
  obtain ⟨pointed, left₇⟩ := taken_first pointerTaken rfl
  dsimp only
  generalize runeTaken : Tag.rune.take fields₇ = result
  obtain ⟨rune, fields₈⟩ := result
  obtain ⟨runed, left₈⟩ := taken_first runeTaken rfl
  dsimp only
  have left : ∀ query, valuesFor query fields₈ = leftFor query pairs := by
    intro query
    rw [left₈, left₇, left₆, left₅, left₄, left₃, left₂, left₁, leftFor]
    by_cases known : ∃ tag : Tag, query = [tag.byte]
    · obtain ⟨tag, rfl⟩ := known
      cases tag <;> simp [Tag.byte]
    · have other : ∀ tag : Tag, query ≠ [tag.byte] := fun tag same => known ⟨tag, same⟩
      simp [other]
  constructor
  case body => rfl
  case incompleteField => rfl
  case duplicateField => exact Tag.duplicate_iff pairs
  case unrecognizedEvenField =>
    rw [Tag.any_even]
    simp only [left]
  case contentEncoding => exact encoding
  case contentType => rw [type, left₁, if_neg (by decide)]
  case delegate => simp [delegated, left₂, left₁, Tag.byte]
  case metadata =>
    have same : valuesFor [Tag.metadata.byte] fields₃ = valuesFor [Tag.metadata.byte] pairs := by
      simp [left₃, left₂, left₁, Tag.byte]
    rw [joined, same]
  case metaprotocol => simp [protocol, left₄, left₃, left₂, left₁, Tag.byte]
  case parents => simp [parents, left₅, left₄, left₃, left₂, left₁, Tag.byte]
  case pointer => simp [pointed, left₆, left₅, left₄, left₃, left₂, left₁, Tag.byte]
  case rune => simp [runed, left₇, left₆, left₅, left₄, left₃, left₂, left₁, Tag.byte]

theorem payload_spec {pairs : Tag.Fields} (named : ∀ pair ∈ pairs, pair.1 ≠ [])
    (chunks : Option (List Bytes)) {envelope : RawEnvelope}
    (written : envelope.payload = payloadOf pairs chunks) :
    envelope.parse = ofFields pairs false (chunks.map List.flatten) := by
  have start := bodyStart_pairs named
  have size := length_pairs pairs
  rw [parse_eq, written]
  cases chunks with
  | none =>
      have fields := fieldsOf_pairs pairs []
      have place := start []
      rw [List.append_nil] at fields place
      simp only [payloadOf, List.append_nil, place, bodyStart, Option.map_none, Option.getD_none,
        List.take_length, fields, fieldsOf]
  | some chunks =>
      have fields := fieldsOf_pairs pairs []
      have place : bodyStart (payloadOf pairs (some chunks)) = some (2 * pairs.length) := by
        rw [payloadOf, start]
        cases chunks <;> simp [bodyStart]
      rw [List.append_nil] at fields
      rw [place, Option.getD_some, payloadOf, List.take_left' size, fields, Option.map_some,
        Option.map_some, ← List.drop_drop, List.drop_left' size]
      simp [fieldsOf]

/-- Envelope fields and body are read back as they were written, and a lone tag behind the
fields only shows that the fields are incomplete. -/
theorem parse_readBack {pairs : Tag.Fields} (named : ∀ pair ∈ pairs, pair.1 ≠ [])
    (chunks : Option (List Bytes)) {envelope : RawEnvelope}
    (written : envelope.payload = payloadOf pairs chunks) :
    ReadBack pairs chunks envelope.parse ∧
      (chunks = none → ∀ tag : Bytes, tag ≠ [] →
        { envelope with payload := envelope.payload ++ [tag] }.parse =
          { envelope.parse with incompleteField := true }) := by
  constructor
  · rw [payload_spec named chunks written]
    exact ofFields_readBack pairs chunks
  · rintro rfl tag some
    have alone := payload_spec named none written
    have place := bodyStart_pairs named [tag]
    have fields := fieldsOf_pairs pairs [tag]
    rw [alone, Option.map_none, ← ofFields_incomplete, parse_eq]
    simp only [written, payloadOf, List.append_nil, place, bodyStart, some, if_false,
      Option.map_none, Option.getD_none, List.take_length, fields, fieldsOf]

theorem duplicate_readBack :
    ReadBack [([1], [0x61]), ([1], [])] (some [[0x62], [0x63]])
      { input := 0, offset := 0, payload := [[1], [0x61], [1], [], [], [0x62], [0x63]],
        pushnum := false, stutter := false : RawEnvelope }.parse :=
  (parse_readBack (by decide) (some [[0x62], [0x63]]) rfl).1

end RawEnvelope

end WjkIndexer
