import WjkIndexer.Database.Pebble

/-!
The encoding of unfinished inscriptions: a list of scripts without a count, which is read with a
cursor until the end of the bytes.
-/

namespace WjkIndexer

open ByteString

namespace Part

def getBytes (part : Part) : Bytes :=
  (if part.isTapscript then 1 else 0) :: beBytes 4 (part.scriptBuffer.length % 2 ^ 32) ++
    part.scriptBuffer

end Part

theorem slice_ok {bytes part : Bytes} {first last : Nat}
    (taken : slice bytes first last = .ok part) : first ≤ last ∧ last ≤ bytes.length := by
  rw [slice] at taken
  split at taken
  · rename_i inside
    exact inside
  · cases taken

/-- The length of a script, from the four bytes at the cursor. -/
def readScriptLen (bytes : Bytes) (currentByte : Nat) : Except PebbleError Nat := do
  let size ← tryInto 4 (← slice bytes currentByte (currentByte + 4))
  .ok (ofBeBytes size.1)

/-- The loop over the parts. It moves on by more than it reads of a part, or it panics. -/
def readParts (bytes : Bytes) (currentByte : Nat) : Except PebbleError (List Part) :=
  if currentByte = bytes.length then .ok []
  else
    match bytes[currentByte]? with
    | none => .error .panic
    | some flag =>
        match readScriptLen bytes (currentByte + 1) with
        | .error error => .error error
        | .ok scriptLen =>
            match _taken : slice bytes (currentByte + 1 + 4) (currentByte + 1 + 4 + scriptLen) with
            | .error error => .error error
            | .ok scriptBuffer =>
                (readParts bytes (currentByte + 1 + 4 + scriptLen)).map fun rest =>
                  { isTapscript := flag == 1, scriptBuffer } :: rest
termination_by bytes.length - currentByte
decreasing_by
  have inside := slice_ok _taken
  omega

def Pebble.partials : Pebble Partials where
  getBytes value :=
    beBytes 4 value.inscriptionIndex ++ beBytes 32 value.genesisTxid.toNat ++
      value.parts.flatMap Part.getBytes
  fromBytes bytes := do
    let inscriptionIndex ← tryInto 4 (← slice bytes 0 4)
    let genesisTxid ← tryInto 32 (← slice bytes 4 (32 + 4))
    let parts ← readParts bytes (32 + 4)
    .ok {
      inscriptionIndex := ofBeBytes inscriptionIndex.1
      genesisTxid := BitVec.ofNat 256 (ofBeBytes genesisTxid.1)
      parts }

theorem readParts_cons (before after : Bytes) {part : Part}
    (short : part.scriptBuffer.length < 2 ^ 32) :
    readParts (before ++ (part.getBytes ++ after)) before.length =
      (readParts (before ++ part.getBytes ++ after) (before ++ part.getBytes).length).map
        (part :: ·) := by
  obtain ⟨isTapscript, script⟩ := part
  generalize mark : (if isTapscript then (1 : UInt8) else 0) = flag
  have shape : before ++ (Part.getBytes ⟨isTapscript, script⟩ ++ after) =
      before ++ [flag] ++ beBytes 4 script.length ++ script ++ after := by
    have fits : script.length % 2 ^ 32 = script.length := Nat.mod_eq_of_lt short
    simp only [Part.getBytes, fits, mark, List.append_assoc, List.cons_append, List.nil_append]
  have stop : (before ++ Part.getBytes ⟨isTapscript, script⟩).length =
      before.length + 1 + 4 + script.length := by
    simp only [Part.getBytes, List.length_append, List.length_cons, length_beBytes]
    omega
  have inside : before.length ≠ (before ++ [flag] ++ beBytes 4 script.length ++ script ++
      after).length := by
    simp only [List.length_append, List.length_singleton, length_beBytes]
    omega
  have flagged : (before ++ [flag] ++ beBytes 4 script.length ++ script ++ after)[before.length]? =
      some flag := by
    simp only [List.append_assoc]
    rw [List.getElem?_append_right (Nat.le_refl _), Nat.sub_self]
    rfl
  have size : readScriptLen (before ++ [flag] ++ beBytes 4 script.length ++ script ++ after)
      (before.length + 1) = .ok script.length := by
    have cut := slice_append (before ++ [flag]) (beBytes 4 script.length) (script ++ after)
    rw [List.length_append, List.length_singleton, length_beBytes, ← List.append_assoc] at cut
    rw [readScriptLen, cut]
    simp only [bind, Except.bind, tryInto_ok (length_beBytes _ _)]
    rw [ofBeBytes_beBytes (lt_of_lt_of_eq short (by norm_num))]
  have buffer : slice (before ++ [flag] ++ beBytes 4 script.length ++ script ++ after)
      (before.length + 1 + 4) (before.length + 1 + 4 + script.length) = .ok script := by
    have cut := slice_append (before ++ [flag] ++ beBytes 4 script.length) script after
    rw [List.length_append, List.length_append, List.length_singleton, length_beBytes] at cut
    exact cut
  have whole : before ++ Part.getBytes ⟨isTapscript, script⟩ ++ after =
      before ++ [flag] ++ beBytes 4 script.length ++ script ++ after := by
    rw [List.append_assoc, shape]
  have read : (flag == 1) = isTapscript := by
    rw [← mark]
    cases isTapscript <;> rfl
  rw [shape, whole, stop, readParts, if_neg inside]
  simp only [flagged, size]
  split
  · rename_i error failed
    rw [buffer] at failed
    cases failed
  · rename_i taken found
    rw [buffer] at found
    cases found
    rw [read]

theorem readParts_encoded (before : Bytes) (parts : List Part)
    (short : ∀ part ∈ parts, part.scriptBuffer.length < 2 ^ 32) :
    readParts (before ++ parts.flatMap Part.getBytes) before.length = .ok parts := by
  induction parts generalizing before with
  | nil => rw [List.flatMap_nil, List.append_nil, readParts, if_pos rfl]
  | cons part rest ih =>
      rw [List.flatMap_cons, readParts_cons before _ (short part List.mem_cons_self),
        ih (before ++ part.getBytes) fun other listed =>
          short other (List.mem_cons_of_mem _ listed)]
      rfl

/-- An unfinished inscription is read back from its encoding. -/
theorem partials_fromBytes (value : Partials) (index : value.inscriptionIndex < 2 ^ 32)
    (short : ∀ part ∈ value.parts, part.scriptBuffer.length < 2 ^ 32) :
    Pebble.partials.fromBytes (Pebble.partials.getBytes value) = .ok value := by
  obtain ⟨inscriptionIndex, genesisTxid, parts⟩ := value
  have first : slice (beBytes 4 inscriptionIndex ++ beBytes 32 genesisTxid.toNat ++
      parts.flatMap Part.getBytes) 0 4 = .ok (beBytes 4 inscriptionIndex) := by
    have cut := slice_append [] (beBytes 4 inscriptionIndex)
      (beBytes 32 genesisTxid.toNat ++ parts.flatMap Part.getBytes)
    simpa using cut
  have second : slice (beBytes 4 inscriptionIndex ++ beBytes 32 genesisTxid.toNat ++
      parts.flatMap Part.getBytes) 4 36 = .ok (beBytes 32 genesisTxid.toNat) := by
    have cut := slice_append (beBytes 4 inscriptionIndex) (beBytes 32 genesisTxid.toNat)
      (parts.flatMap Part.getBytes)
    simpa using cut
  have loop : readParts (beBytes 4 inscriptionIndex ++ beBytes 32 genesisTxid.toNat ++
      parts.flatMap Part.getBytes) 36 = .ok parts := by
    have read := readParts_encoded (beBytes 4 inscriptionIndex ++ beBytes 32 genesisTxid.toNat)
      parts short
    simpa using read
  have number : ofBeBytes (beBytes 4 inscriptionIndex) = inscriptionIndex :=
    ofBeBytes_beBytes (lt_of_lt_of_eq index (by norm_num))
  have hash : BitVec.ofNat 256 (ofBeBytes (beBytes 32 genesisTxid.toNat)) = genesisTxid := by
    rw [ofBeBytes_beBytes (lt_of_lt_of_eq genesisTxid.isLt (by norm_num)), BitVec.ofNat_toNat,
      BitVec.setWidth_eq]
  simp only [Pebble.partials, Nat.reduceAdd, first, second, loop, bind, Except.bind,
    tryInto_ok (length_beBytes _ _), number, hash]

theorem parts_fromBytes :
    Pebble.partials.fromBytes (Pebble.partials.getBytes
        { inscriptionIndex := 3, genesisTxid := 9, parts := [⟨true, []⟩, ⟨false, [99, 1]⟩] }) =
      .ok { inscriptionIndex := 3, genesisTxid := 9, parts := [⟨true, []⟩, ⟨false, [99, 1]⟩] } :=
  partials_fromBytes _ (by decide) (by decide)

end WjkIndexer
