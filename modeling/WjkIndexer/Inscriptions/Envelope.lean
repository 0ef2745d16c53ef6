import WjkIndexer.Database.Tables
import WjkIndexer.Inscriptions.Structs

/-!
Inscriptions carried by tapscripts: envelopes of pushes, and the fields and the body
they hold.
-/

namespace WjkIndexer

inductive Tag where
  | pointer
  | contentType
  | parent
  | metadata
  | metaprotocol
  | contentEncoding
  | delegate
  | rune
  deriving DecidableEq, Repr

namespace Tag

def byte : Tag → UInt8
  | pointer => 2
  | contentType => 1
  | parent => 3
  | metadata => 5
  | metaprotocol => 7
  | contentEncoding => 9
  | delegate => 11
  | rune => 13

def chunked : Tag → Bool
  | metadata => true
  | _ => false

abbrev Fields := List (Bytes × Bytes)

def valuesOf (tag : Tag) (fields : Fields) : List Bytes :=
  (fields.filter fun field => field.1 == [tag.byte]).map Prod.snd

def without (tag : Tag) (fields : Fields) : Fields :=
  fields.filter fun field => field.1 != [tag.byte]

def take (tag : Tag) (fields : Fields) : Option Bytes × Fields :=
  match tag.valuesOf fields with
  | [] => (none, fields)
  | value :: rest =>
      if tag.chunked then (some (value :: rest).flatten, tag.without fields)
      else (some value, fields.eraseP fun field => field.1 == [tag.byte])

def takeArray (tag : Tag) (fields : Fields) : List Bytes × Fields :=
  (tag.valuesOf fields, tag.without fields)

end Tag

structure RawEnvelope where
  input : Nat
  offset : Nat
  payload : List Bytes
  pushnum : Bool
  stutter : Bool
  deriving DecidableEq, Repr

namespace RawEnvelope

def bodyStart : List Bytes → Option Nat
  | [] => none
  | [key] => if key = [] then some 0 else none
  | key :: _ :: rest => if key = [] then some 0 else (bodyStart rest).map (· + 2)

def fieldsOf : List Bytes → Tag.Fields × Bool
  | key :: value :: rest => ((key, value) :: (fieldsOf rest).1, (fieldsOf rest).2)
  | [_] => ([], true)
  | [] => ([], false)

/-- `ParsedEnvelope::from`, its payload. -/
def parse (envelope : RawEnvelope) : Inscription :=
  let body := bodyStart envelope.payload
  let (fields, incompleteField) :=
    fieldsOf (envelope.payload.take (body.getD envelope.payload.length))
  let duplicateField := !decide (fields.map Prod.fst).Nodup
  let (contentEncoding, fields) := Tag.contentEncoding.take fields
  let (contentType, fields) := Tag.contentType.take fields
  let (delegate, fields) := Tag.delegate.take fields
  let (metadata, fields) := Tag.metadata.take fields
  let (metaprotocol, fields) := Tag.metaprotocol.take fields
  let (parents, fields) := Tag.parent.takeArray fields
  let (pointer, fields) := Tag.pointer.take fields
  let (rune, fields) := Tag.rune.take fields
  { body := body.map fun start => (envelope.payload.drop (start + 1)).flatten
    contentEncoding
    contentType
    delegate
    duplicateField
    incompleteField
    metadata
    metaprotocol
    parents
    pointer
    rune
    unrecognizedEvenField := fields.any fun field =>
      (field.1.head?).any fun lsb => lsb % 2 == 0 }

/-! The opcodes an envelope is made of. -/

def opIf : Nat := 0x63
def opEndif : Nat := 0x68
def opPushnumNeg1 : Nat := 0x4f
def opPushnum1 : Nat := 0x51
def opPushnum16 : Nat := 0x60

/-- A list of instructions, where `none` is an error of the script iterator. -/
abbrev Instructions := List (Option Instruction)

def peeksEmptyPush (instructions : Instructions) : Bool :=
  instructions.head? == some (some (.pushBytes []))

/-- The loop over the payload: the envelope's pushes, or `none` when it is broken off. The
outer `none` is an error of the iterator. -/
def readPayload : Instructions → List Bytes → Bool →
    Option (Instructions × Option (List Bytes × Bool))
  | [], _, _ => some ([], none)
  | none :: _, _, _ => none
  | some (.pushBytes push) :: rest, payload, pushnum => readPayload rest (payload ++ [push]) pushnum
  | some (.op opcode) :: rest, payload, pushnum =>
      if opcode = opEndif then some (rest, some (payload, pushnum))
      else if opcode = opPushnumNeg1 then readPayload rest (payload ++ [[0x81]]) true
      else if opPushnum1 ≤ opcode ∧ opcode ≤ opPushnum16 then
        readPayload rest (payload ++ [[UInt8.ofNat (opcode - 0x50)]]) true
      else some (rest, none)

def fromInstructions (instructions : Instructions) (input offset : Nat) (stutter : Bool) :
    Option (Instructions × Bool × Option RawEnvelope) :=
  match instructions with
  | some (.op opcode) :: rest =>
      if opcode = opIf then
        match rest with
        | some (.pushBytes push) :: inner =>
            if push = protocolId then
              (readPayload inner [] false).map fun (left, envelope) =>
                (left, false, envelope.map fun (payload, pushnum) =>
                  { input, offset, payload, pushnum, stutter })
            else some (rest, peeksEmptyPush rest, none)
        | _ => some (rest, peeksEmptyPush rest, none)
      else some (instructions, peeksEmptyPush instructions, none)
  | _ => some (instructions, peeksEmptyPush instructions, none)

def scan (input : Nat) : Nat → Instructions → List RawEnvelope → Bool → Option (List RawEnvelope)
  | _, [], envelopes, _ => some envelopes
  | 0, _, _, _ => none
  | _ + 1, none :: _, _, _ => none
  | fuel + 1, some instruction :: rest, envelopes, stuttered =>
      if instruction = .pushBytes [] then
        match fromInstructions rest input envelopes.length stuttered with
        | none => none
        | some (left, _, some envelope) => scan input fuel left (envelopes ++ [envelope]) stuttered
        | some (left, stutter, none) => scan input fuel left envelopes stutter
      else scan input fuel rest envelopes stuttered

def fromTapscript (env : Env) (tapscript : Bytes) (input : Nat) : Option (List RawEnvelope) :=
  let instructions := env.instructions tapscript
  scan input instructions.length instructions [] false

end RawEnvelope

def Inscription.fromParts (env : Env) (partials : List Part) (vin : Nat) : ParsedInscription :=
  let sigScripts := partials.map Part.scriptBuffer
  match partials with
  | [part] =>
      if part.isTapscript then
        match RawEnvelope.fromTapscript env part.scriptBuffer vin with
        | some envelopes => .many (envelopes.map RawEnvelope.parse)
        | none => InscriptionParser.parse sigScripts
      else InscriptionParser.parse sigScripts
  | _ => InscriptionParser.parse sigScripts

end WjkIndexer
