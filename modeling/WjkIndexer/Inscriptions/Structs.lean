import WjkIndexer.Env

/-!
Inscriptions carried by signature scripts: decoding the pushes of a script and reading
the pieces of a body that may be spread over several transactions.
-/

namespace WjkIndexer

/-- `b"ord"` -/
def protocolId : Bytes := [0x6f, 0x72, 0x64]

structure Inscription where
  body : Option Bytes
  contentType : Option Bytes
  contentEncoding : Option Bytes := none
  delegate : Option Bytes := none
  duplicateField : Bool := false
  incompleteField : Bool := false
  metadata : Option Bytes := none
  metaprotocol : Option Bytes := none
  parents : List Bytes := []
  pointer : Option Bytes := none
  rune : Option Bytes := none
  unrecognizedEvenField : Bool := false
  deriving DecidableEq, Repr

inductive ParsedInscription where
  | none
  | partialInscription
  | single (inscription : Inscription)
  | many (inscriptions : List Inscription)
  deriving DecidableEq, Repr

def isUtf8 (bytes : Bytes) : Bool := (String.fromUTF8? ⟨bytes.toArray⟩).isSome

namespace Inscription

/-- The content type, when it is valid UTF-8. -/
def contentTypeText (inscription : Inscription) : Option Bytes :=
  inscription.contentType.filter isUtf8

/-- A little-endian number of at most eight bytes; longer values must end in zeros. -/
def pointerValue (inscription : Inscription) : Option Nat :=
  inscription.pointer.bind fun value =>
    if (value.drop 8).any (· != 0) then none
    else some ((value.take 8).foldr (fun byte number => byte.toNat + 256 * number) 0)

end Inscription

namespace InscriptionParser

def decodePush : Bytes → Option (Bytes × Bytes)
  | [] => none
  | opcode :: rest =>
      let size := opcode.toNat
      -- op_0
      if size = 0 then some ([], rest)
      -- op_1 - op_16
      else if 81 ≤ size ∧ size ≤ 96 then some ([opcode - 80], rest)
      -- op_push 1-75
      else if size ≤ 75 then
        if rest.length < size then none else some (rest.take size, rest.drop size)
      -- op_pushdata1
      else if size = 76 then
        match rest with
        | [] => none
        | first :: data =>
            let len := first.toNat
            if data.length < len then none else some (data.take len, data.drop len)
      -- op_pushdata2: the length is read from the opcode and the byte after it
      else if size = 77 then
        match rest with
        | first :: _ :: data =>
            let len := first.toNat * 2 ^ 8 + size
            if data.length < len then none else some (data.take len, data.drop len)
        | _ => none
      -- op_pushdata4: the length is read from the opcode and the three bytes after it
      else if size = 78 then
        match rest with
        | first :: second :: third :: _ :: data =>
            let len := third.toNat * 2 ^ 24 + second.toNat * 2 ^ 16 + first.toNat * 2 ^ 8 + size
            if data.length < len then none else some (data.take len, data.drop len)
        | _ => none
      else none

def decodeFrom : Nat → Bytes → Option (List Bytes)
  | _, [] => some []
  | 0, _ => none
  | fuel + 1, bytes =>
      match decodePush bytes with
      | none => none
      | some (data, rest) => (decodeFrom fuel rest).map (data :: ·)

def decodePushDatas (script : Bytes) : Option (List Bytes) := decodeFrom script.length script

def pushDataToNumber (data : Bytes) : Option Nat :=
  if 8 < data.length then none
  else some (data.foldr (fun byte number => byte.toNat + 256 * number) 0)

def readChunks : Nat → List Bytes → Bytes → Nat × Bytes
  | npieces + 1, number :: piece :: pushDatas, body =>
      if pushDataToNumber number = some npieces then
        readChunks npieces pushDatas (body ++ piece)
      else (npieces + 1, body)
  | npieces, _, body => (npieces, body)

def readScripts (contentType : Bytes) : List Bytes → Nat → List Bytes → Bytes → ParsedInscription
  | sigScripts, npieces, pushDatas, body =>
      let (left, body) := readChunks npieces pushDatas body
      if left = 0 then .single { contentType := some contentType, body := some body }
      else
        match sigScripts with
        | [] => .partialInscription
        | sigScript :: rest =>
            match decodePushDatas sigScript with
            | some (number :: piece :: more) =>
                if pushDataToNumber number = some (left - 1) then
                  readScripts contentType rest left (number :: piece :: more) body
                else .none
            | _ => .none

def parse : List Bytes → ParsedInscription
  -- indexing the empty list panics; every caller has a part
  | [] => .none
  | sigScript :: rest =>
      match decodePushDatas sigScript with
      | some (protocol :: count :: contentType :: pushDatas) =>
          if protocol ≠ protocolId then .none
          else
            match pushDataToNumber count with
            | none => .none
            | some npieces =>
                if npieces = 0 then .none
                else readScripts contentType rest npieces pushDatas []
      | _ => .none

end InscriptionParser

end WjkIndexer
