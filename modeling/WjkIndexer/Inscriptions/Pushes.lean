import WjkIndexer.Inscriptions.Structs

/-!
Scripts that push data: what such a script says, and when the parser reads it so.
-/

namespace WjkIndexer

/-- How the length bytes after OP_PUSHDATA2 and OP_PUSHDATA4 are read. -/
structure LongLengths where
  pushdata2 : UInt8 → UInt8 → Nat
  pushdata4 : UInt8 → UInt8 → UInt8 → UInt8 → Nat

def littleEndian : LongLengths where
  pushdata2 first second := first.toNat + 2 ^ 8 * second.toNat
  pushdata4 first second third fourth :=
    first.toNat + 2 ^ 8 * second.toNat + 2 ^ 16 * third.toNat + 2 ^ 24 * fourth.toNat

def fromOpcode : LongLengths where
  pushdata2 first _ := first.toNat * 2 ^ 8 + 77
  pushdata4 first second third _ :=
    third.toNat * 2 ^ 24 + second.toNat * 2 ^ 16 + first.toNat * 2 ^ 8 + 78

inductive PushForm where
  | op0
  | number
  | direct
  | pushdata1
  | pushdata2
  | pushdata4
  deriving DecidableEq, Repr

inductive Encodes (lengths : LongLengths) : PushForm → Bytes → Bytes → Prop where
  | op0 : Encodes lengths .op0 [] [0]
  | number (opcode : UInt8) (small : 81 ≤ opcode.toNat ∧ opcode.toNat ≤ 96) :
      Encodes lengths .number [opcode - 80] [opcode]
  | direct (opcode : UInt8) (data : Bytes) (pushed : 1 ≤ opcode.toNat) (short : opcode.toNat ≤ 75)
      (length : data.length = opcode.toNat) : Encodes lengths .direct data (opcode :: data)
  | pushdata1 (first : UInt8) (data : Bytes) (length : data.length = first.toNat) :
      Encodes lengths .pushdata1 data (76 :: first :: data)
  | pushdata2 (first second : UInt8) (data : Bytes)
      (length : data.length = lengths.pushdata2 first second) :
      Encodes lengths .pushdata2 data (77 :: first :: second :: data)
  | pushdata4 (first second third fourth : UInt8) (data : Bytes)
      (length : data.length = lengths.pushdata4 first second third fourth) :
      Encodes lengths .pushdata4 data (78 :: first :: second :: third :: fourth :: data)

inductive Pushes (lengths : LongLengths) : List (PushForm × Bytes) → Bytes → Prop where
  | nil : Pushes lengths [] []
  | cons {form : PushForm} {data bytes : Bytes} {pushes : List (PushForm × Bytes)} {script : Bytes}
      (first : Encodes lengths form data bytes) (rest : Pushes lengths pushes script) :
      Pushes lengths ((form, data) :: pushes) (bytes ++ script)

inductive Stuck : Bytes → Prop where
  | opcode (opcode : UInt8) (rest : Bytes)
      (other : opcode.toNat = 79 ∨ opcode.toNat = 80 ∨ 96 < opcode.toNat) : Stuck (opcode :: rest)
  | direct (opcode : UInt8) (rest : Bytes) (short : opcode.toNat ≤ 75)
      (past : rest.length < opcode.toNat) : Stuck (opcode :: rest)
  | length1 : Stuck [76]
  | pushdata1 (first : UInt8) (rest : Bytes) (past : rest.length < first.toNat) :
      Stuck (76 :: first :: rest)
  | length2 (rest : Bytes) (past : rest.length < 2) : Stuck (77 :: rest)
  | pushdata2 (first second : UInt8) (rest : Bytes)
      (past : rest.length < littleEndian.pushdata2 first second) :
      Stuck (77 :: first :: second :: rest)
  | length4 (rest : Bytes) (past : rest.length < 4) : Stuck (78 :: rest)
  | pushdata4 (first second third fourth : UInt8) (rest : Bytes)
      (past : rest.length < littleEndian.pushdata4 first second third fourth) :
      Stuck (78 :: first :: second :: third :: fourth :: rest)

def Malformed (script : Bytes) : Prop :=
  ∃ pushes front tail, Pushes littleEndian pushes front ∧ Stuck tail ∧ script = front ++ tail

namespace InscriptionParser

theorem cut_append {data : Bytes} {len : Nat} (length : data.length = len) (rest : Bytes) :
    (if (data ++ rest).length < len then none
      else some ((data ++ rest).take len, (data ++ rest).drop len)) = some (data, rest) := by
  have enough : ¬ (data ++ rest).length < len := by
    rw [List.length_append]
    omega
  rw [if_neg enough, List.take_left' length, List.drop_left' length]

theorem decodePush_encodes {form : PushForm} {data bytes : Bytes}
    (encodes : Encodes fromOpcode form data bytes) (rest : Bytes) :
    decodePush (bytes ++ rest) = some (data, rest) := by
  cases encodes with
  | op0 => rfl
  | number opcode small =>
      unfold decodePush
      dsimp only [List.singleton_append]
      rw [if_neg (by omega), if_pos small]
  | direct opcode data pushed short length =>
      unfold decodePush
      dsimp only [List.cons_append]
      rw [if_neg (by omega), if_neg (by omega), if_pos short]
      exact cut_append length rest
  | pushdata1 first data length =>
      unfold decodePush
      dsimp only [List.cons_append]
      rw [if_neg (by decide), if_neg (by decide), if_neg (by decide), if_pos (by decide)]
      exact cut_append length rest
  | pushdata2 first second data length =>
      unfold decodePush
      dsimp only [List.cons_append]
      rw [if_neg (by decide), if_neg (by decide), if_neg (by decide), if_neg (by decide),
        if_pos (by decide)]
      exact cut_append length rest
  | pushdata4 first second third fourth data length =>
      unfold decodePush
      dsimp only [List.cons_append]
      rw [if_neg (by decide), if_neg (by decide), if_neg (by decide), if_neg (by decide),
        if_neg (by decide), if_pos (by decide)]
      exact cut_append length rest

theorem of_cut {bytes data rest : Bytes} {len : Nat}
    (cut : (if bytes.length < len then none else some (bytes.take len, bytes.drop len)) =
      some (data, rest)) : data.length = len ∧ bytes = data ++ rest := by
  split at cut
  · cases cut
  · rename_i enough
    cases cut
    exact ⟨by rw [List.length_take]; omega, (List.take_append_drop len bytes).symm⟩

theorem decodePush_spec {script data rest : Bytes}
    (decoded : decodePush script = some (data, rest)) :
    ∃ form bytes, Encodes fromOpcode form data bytes ∧ script = bytes ++ rest := by
  have byte : ∀ {opcode : UInt8} {size : Nat}, opcode.toNat = size → size < 256 →
      opcode = UInt8.ofNat size := by
    intro opcode size same small
    rw [← same, UInt8.ofNat_toNat]
  unfold decodePush at decoded
  split at decoded
  · cases decoded
  rename_i opcode after
  dsimp only at decoded
  split at decoded
  · rename_i zero
    cases decoded
    cases byte zero (by decide)
    exact ⟨.op0, _, .op0, rfl⟩
  split at decoded
  · rename_i small
    cases decoded
    exact ⟨.number, _, .number opcode small, rfl⟩
  split at decoded
  · rename_i nonzero _ short
    obtain ⟨length, rfl⟩ := of_cut decoded
    exact ⟨.direct, _, .direct opcode data (by omega) short length, rfl⟩
  split at decoded
  · rename_i size
    cases byte size (by decide)
    split at decoded
    · cases decoded
    · rename_i first bytes
      obtain ⟨length, rfl⟩ := of_cut decoded
      exact ⟨.pushdata1, _, .pushdata1 first data length, rfl⟩
  split at decoded
  · rename_i size
    cases byte size (by decide)
    split at decoded
    · rename_i first second bytes
      rw [size] at decoded
      obtain ⟨length, rfl⟩ := of_cut decoded
      exact ⟨.pushdata2, _, .pushdata2 first second data length, rfl⟩
    · cases decoded
  split at decoded
  · rename_i size
    cases byte size (by decide)
    split at decoded
    · rename_i first second third fourth bytes
      rw [size] at decoded
      obtain ⟨length, rfl⟩ := of_cut decoded
      exact ⟨.pushdata4, _, .pushdata4 first second third fourth data length, rfl⟩
    · cases decoded
  · cases decoded

theorem decodeFrom_spec {fuel : Nat} {script : Bytes} {datas : List Bytes}
    (decoded : decodeFrom fuel script = some datas) :
    ∃ pushes, Pushes fromOpcode pushes script ∧ datas = pushes.map Prod.snd := by
  induction fuel generalizing script datas with
  | zero =>
      cases script with
      | nil =>
          cases decoded
          exact ⟨[], .nil, rfl⟩
      | cons opcode rest => cases decoded
  | succ fuel ih =>
      cases script with
      | nil =>
          cases decoded
          exact ⟨[], .nil, rfl⟩
      | cons opcode after =>
          rw [decodeFrom] at decoded
          · split at decoded
            · cases decoded
            · rename_i data rest head
              obtain ⟨others, later, rfl⟩ := Option.map_eq_some_iff.mp decoded
              obtain ⟨pushes, makes, rfl⟩ := ih later
              obtain ⟨form, bytes, encodes, same⟩ := decodePush_spec head
              rw [same]
              exact ⟨(form, data) :: pushes, .cons encodes makes, rfl⟩
          · intro empty
            cases empty

theorem encodes_length {lengths : LongLengths} {form : PushForm} {data bytes : Bytes}
    (encodes : Encodes lengths form data bytes) : 0 < bytes.length := by
  cases encodes <;> simp

theorem decodeFrom_pushes {pushes : List (PushForm × Bytes)} {script : Bytes}
    (makes : Pushes fromOpcode pushes script) {fuel : Nat} (enough : script.length ≤ fuel) :
    decodeFrom fuel script = some (pushes.map Prod.snd) := by
  induction makes generalizing fuel with
  | nil => cases fuel <;> rfl
  | @cons form data bytes pushes script first rest ih =>
      have positive := encodes_length first
      rw [List.length_append] at enough
      cases fuel with
      | zero => omega
      | succ fuel =>
          have nonempty : bytes ++ script ≠ [] := by
            intro empty
            rw [List.append_eq_nil_iff] at empty
            rw [empty.1] at positive
            exact absurd positive (Nat.lt_irrefl 0)
          have later := ih (show script.length ≤ fuel by omega)
          rw [decodeFrom, decodePush_encodes first script]
          · dsimp only
            rw [later]
            rfl
          · exact nonempty

theorem decodePushDatas_iff {script : Bytes} {datas : List Bytes} :
    decodePushDatas script = some datas ↔
      ∃ pushes, Pushes fromOpcode pushes script ∧ datas = pushes.map Prod.snd := by
  constructor
  · exact decodeFrom_spec
  · rintro ⟨pushes, makes, rfl⟩
    exact decodeFrom_pushes makes (Nat.le_refl _)

end InscriptionParser

def LengthAsOpcode : PushForm × Bytes → Prop
  | (.pushdata2, data) => data.length = 0x4d4d
  | (.pushdata4, data) => data.length = 0x4e4e4e4e
  | _ => True

theorem Encodes.asOpcode {form : PushForm} {data bytes : Bytes}
    (encodes : Encodes littleEndian form data bytes) (readAsOpcode : LengthAsOpcode (form, data)) :
    Encodes fromOpcode form data bytes := by
  cases encodes with
  | op0 => exact .op0
  | number opcode small => exact .number opcode small
  | direct opcode data pushed short length => exact .direct opcode data pushed short length
  | pushdata1 first data length => exact .pushdata1 first data length
  | pushdata2 first second data length =>
      have small := first.toNat_lt
      have also := second.toNat_lt
      simp only [LengthAsOpcode, littleEndian] at readAsOpcode length
      refine .pushdata2 first second data ?_
      simp only [fromOpcode]
      omega
  | pushdata4 first second third fourth data length =>
      have small := first.toNat_lt
      have also := second.toNat_lt
      have third_lt := third.toNat_lt
      have fourth_lt := fourth.toNat_lt
      simp only [LengthAsOpcode, littleEndian] at readAsOpcode length
      refine .pushdata4 first second third fourth data ?_
      simp only [fromOpcode]
      omega

theorem Encodes.exact_of_decoded {form : PushForm} {data bytes rest left : Bytes}
    (encodes : Encodes littleEndian form data bytes)
    (decoded : InscriptionParser.decodePush (bytes ++ rest) = some (data, left)) :
    LengthAsOpcode (form, data) ∧ left = rest := by
  have short : Encodes fromOpcode form data bytes → left = rest := by
    intro read
    rw [InscriptionParser.decodePush_encodes read] at decoded
    cases decoded
    rfl
  cases encodes with
  | op0 => exact ⟨trivial, short .op0⟩
  | number opcode small => exact ⟨trivial, short (.number opcode small)⟩
  | direct opcode data pushed few length =>
      exact ⟨trivial, short (.direct opcode data pushed few length)⟩
  | pushdata1 first data length => exact ⟨trivial, short (.pushdata1 first data length)⟩
  | pushdata2 first second data length =>
      have small := first.toNat_lt
      have also := second.toNat_lt
      simp only [littleEndian] at length
      unfold InscriptionParser.decodePush at decoded
      dsimp only [List.cons_append] at decoded
      rw [if_neg (by decide), if_neg (by decide), if_neg (by decide), if_neg (by decide),
        if_pos (by decide)] at decoded
      obtain ⟨read, same⟩ := InscriptionParser.of_cut decoded
      refine ⟨?_, (List.append_cancel_left same).symm⟩
      have opcode : (77 : UInt8).toNat = 77 := rfl
      rw [opcode] at read
      simp only [LengthAsOpcode]
      omega
  | pushdata4 first second third fourth data length =>
      have small := first.toNat_lt
      have also := second.toNat_lt
      have third_lt := third.toNat_lt
      have fourth_lt := fourth.toNat_lt
      simp only [littleEndian] at length
      unfold InscriptionParser.decodePush at decoded
      dsimp only [List.cons_append] at decoded
      rw [if_neg (by decide), if_neg (by decide), if_neg (by decide), if_neg (by decide),
        if_neg (by decide), if_pos (by decide)] at decoded
      obtain ⟨read, same⟩ := InscriptionParser.of_cut decoded
      refine ⟨?_, (List.append_cancel_left same).symm⟩
      have opcode : (78 : UInt8).toNat = 78 := rfl
      rw [opcode] at read
      simp only [LengthAsOpcode]
      omega

theorem pushes_decoded_iff {pushes : List (PushForm × Bytes)} {script : Bytes}
    (makes : Pushes littleEndian pushes script) :
    InscriptionParser.decodePushDatas script = some (pushes.map Prod.snd) ↔
      ∀ push ∈ pushes, LengthAsOpcode push := by
  rw [InscriptionParser.decodePushDatas_iff]
  constructor
  · rintro ⟨read, reads, same⟩
    induction makes generalizing read with
    | nil =>
        intro push listed
        cases listed
    | @cons form data bytes pushes script first rest ih =>
        cases read with
        | nil => cases same
        | cons head others =>
            obtain ⟨other, also⟩ := head
            rw [List.map_cons, List.map_cons, List.cons.injEq] at same
            obtain ⟨rfl, same⟩ := same
            generalize whole : bytes ++ script = text at reads
            cases reads with
            | @cons _ _ front _ left encodes later =>
                have decoded := InscriptionParser.decodePush_encodes encodes left
                rw [← whole] at decoded
                obtain ⟨readAsOpcode, rfl⟩ := first.exact_of_decoded decoded
                intro push listed
                rcases List.mem_cons.mp listed with rfl | member
                · exact readAsOpcode
                · exact ih others later same push member
  · intro readAsOpcode
    refine ⟨pushes, ?_, rfl⟩
    induction makes with
    | nil => exact .nil
    | cons first rest ih =>
        exact .cons (first.asOpcode (readAsOpcode _ List.mem_cons_self))
          (ih fun push listed => readAsOpcode push (List.mem_cons_of_mem _ listed))

structure DecodedAsSaid (script : Bytes) : Prop where
  pushes : ∀ pushes, Pushes littleEndian pushes script →
    InscriptionParser.decodePushDatas script = some (pushes.map Prod.snd)
  malformed : Malformed script → InscriptionParser.decodePushDatas script = none

/-- When scripts are decoded as they say: long pushes must have the one length that is the same
to the parser, and a malformed script must be malformed for the parser's lengths as well. -/
theorem decodedAsSaid_iff (script : Bytes) :
    DecodedAsSaid script ↔
      (∀ pushes, Pushes littleEndian pushes script → ∀ push ∈ pushes, LengthAsOpcode push) ∧
      (Malformed script → ∀ pushes, ¬ Pushes fromOpcode pushes script) := by
  constructor
  · intro said
    refine ⟨fun pushes makes => (pushes_decoded_iff makes).mp (said.pushes pushes makes), ?_⟩
    intro malformed pushes reads
    have decoded := InscriptionParser.decodePushDatas_iff.mpr ⟨pushes, reads, rfl⟩
    rw [said.malformed malformed] at decoded
    cases decoded
  · rintro ⟨lengths, unread⟩
    refine ⟨fun pushes makes => (pushes_decoded_iff makes).mpr (lengths pushes makes), ?_⟩
    intro malformed
    rw [Option.eq_none_iff_forall_ne_some]
    intro datas decoded
    obtain ⟨pushes, reads, _⟩ := InscriptionParser.decodePushDatas_iff.mp decoded
    exact unread malformed pushes reads

/-- A push of one byte by OP_PUSHDATA2 is not decoded. -/
theorem pushdata2_unread : ¬ ∀ script, DecodedAsSaid script := by
  intro said
  have makes : Pushes littleEndian [(.pushdata2, [0xaa])] [77, 1, 0, 0xaa] :=
    .cons (.pushdata2 1 0 [0xaa] rfl) .nil
  have decoded := (said [77, 1, 0, 0xaa]).pushes _ makes
  have unread : InscriptionParser.decodePushDatas [77, 1, 0, 0xaa] = none := by decide +kernel
  rw [unread] at decoded
  cases decoded

end WjkIndexer
