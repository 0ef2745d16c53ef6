import Mathlib

/-!
UTF-8 texts as lists of bytes: encoding, and decoding that puts a replacement character in
the place of every ill-formed sequence.
-/

namespace Utf8

def encode (text : List Char) : List UInt8 := text.flatMap String.utf8EncodeChar

def isContinuation (byte : UInt8) : Bool := 0x80 ≤ byte && byte ≤ 0xbf

/-- Whether a byte can be the second one of a character of three or four bytes. -/
def isSecond (first second : UInt8) : Bool :=
  if first == 0xe0 then 0xa0 ≤ second && second ≤ 0xbf
  else if first == 0xed then 0x80 ≤ second && second ≤ 0x9f
  else if 0xe1 ≤ first && first ≤ 0xef then isContinuation second
  else if first == 0xf0 then 0x90 ≤ second && second ≤ 0xbf
  else if 0xf1 ≤ first && first ≤ 0xf3 then isContinuation second
  else if first == 0xf4 then 0x80 ≤ second && second ≤ 0x8f
  else false

/-- How many bytes at the head are the start of a character that is broken off. -/
def illFormed : List UInt8 → Nat
  | first :: second :: third :: _ =>
      if isSecond first second then if 0xf0 ≤ first && isContinuation third then 3 else 2 else 1
  | [first, second] => if isSecond first second then 2 else 1
  | _ => 1

/-- The length of the text is fuel enough. -/
def decodeLossy : Nat → List UInt8 → List Char
  | 0, _ => []
  | _ + 1, [] => []
  | fuel + 1, first :: rest =>
      match (first :: rest).toByteArray.utf8DecodeChar? 0 with
      | some char => char :: decodeLossy fuel ((first :: rest).drop char.utf8Size)
      | none =>
          Char.ofNat 0xfffd :: decodeLossy fuel ((first :: rest).drop (illFormed (first :: rest)))

def fromUtf8Lossy (bytes : List UInt8) : String := String.ofList (decodeLossy bytes.length bytes)

theorem encode_append (first second : List Char) :
    encode (first ++ second) = encode first ++ encode second := by
  simp [encode]

theorem decodeLossy_encode (text : List Char) {fuel : Nat} (enough : (encode text).length ≤ fuel) :
    decodeLossy fuel (encode text) = text := by
  induction text generalizing fuel with
  | nil => cases fuel <;> rfl
  | cons char rest ih =>
      have split : encode (char :: rest) = String.utf8EncodeChar char ++ encode rest := by
        simp [encode]
      have width := String.length_utf8EncodeChar char
      have positive := char.utf8Size_pos
      rw [split, List.length_append, width] at enough
      obtain ⟨fuel, rfl⟩ : ∃ less, fuel = less + 1 := ⟨fuel - 1, by omega⟩
      have decoded : (String.utf8EncodeChar char ++ encode rest).toByteArray.utf8DecodeChar? 0 =
          some char := by
        rw [List.toByteArray_append]
        exact ByteArray.utf8DecodeChar?_utf8EncodeChar_append
      have tail : (String.utf8EncodeChar char ++ encode rest).drop char.utf8Size =
          encode rest := by
        rw [← width, List.drop_left]
      have some : String.utf8EncodeChar char ++ encode rest ≠ [] := by simp
      rw [split]
      generalize String.utf8EncodeChar char ++ encode rest = bytes at decoded tail some
      cases bytes with
      | nil => exact absurd rfl some
      | cons first others =>
          rw [decodeLossy, decoded]
          dsimp only
          rw [tail, ih (by omega)]

theorem fromUtf8Lossy_encode (text : List Char) :
    fromUtf8Lossy (encode text) = String.ofList text := by
  rw [fromUtf8Lossy, decodeLossy_encode text (Nat.le_refl _)]

theorem ofNat_zero_iff (number : Nat) : UInt8.ofNat number = 0 ↔ number % 256 = 0 := by
  rw [← UInt8.toNat_inj, UInt8.toNat_ofNat']
  rfl

theorem char_zero_iff (char : Char) : char = Char.ofNat 0 ↔ char.val.toNat = 0 := by
  rw [Char.ext_iff, ← UInt32.toNat_inj]
  rfl

theorem last_zero (char : Char) :
    ∃ start last, String.utf8EncodeChar char = start ++ [last] ∧
      (last = 0 ↔ char = Char.ofNat 0) := by
  have continuation : ∀ number, UInt8.ofNat (number % 0x40 + 0x80) ≠ 0 := by
    intro number
    rw [Ne, ofNat_zero_iff]
    omega
  rw [String.utf8EncodeChar, char_zero_iff]
  split
  · refine ⟨[], _, rfl, ?_⟩
    rw [ofNat_zero_iff]
    omega
  split
  · refine ⟨[_], _, rfl, ?_⟩
    have nonzero := continuation char.val.toNat
    simp only [nonzero, false_iff]
    omega
  split
  · refine ⟨[_, _], _, rfl, ?_⟩
    have nonzero := continuation char.val.toNat
    simp only [nonzero, false_iff]
    omega
  · refine ⟨[_, _, _], _, rfl, ?_⟩
    have nonzero := continuation char.val.toNat
    simp only [nonzero, false_iff]
    omega

theorem rdropWhile_encode (text : List Char) :
    (encode text).rdropWhile (· == 0) = encode (text.rdropWhile (· == Char.ofNat 0)) := by
  induction text using List.reverseRecOn with
  | nil => rfl
  | append_singleton rest char ih =>
      obtain ⟨start, last, encoded, zero⟩ := last_zero char
      have split : encode (rest ++ [char]) = (encode rest ++ start) ++ [last] := by
        simp [encode, encoded]
      by_cases same : char = Char.ofNat 0
      · have alone : start = [] := by
          rw [same] at encoded
          have length := congrArg List.length encoded
          rw [List.length_append] at length
          exact List.length_eq_zero_iff.mp (by
            change 1 = start.length + 1 at length
            omega)
        rw [split, List.rdropWhile_concat_pos _ _ _ (by simp [zero.mpr same]),
          List.rdropWhile_concat_pos _ _ _ (by simp [same]), alone, List.append_nil, ih]
      · have other : last ≠ 0 := fun reached => same (zero.mp reached)
        rw [split, List.rdropWhile_concat_neg _ _ _ (by simp [other]),
          List.rdropWhile_concat_neg _ _ _ (by simp [same]), ← split]

end Utf8
