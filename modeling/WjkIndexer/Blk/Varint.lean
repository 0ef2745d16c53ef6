import WjkIndexer.Blk.Index
import WjkIndexer.Library.Numeration

/-!
The numbers of the block index: the bytes before the last one count one more than their low bits,
so that each number has one spelling.
-/

namespace WjkIndexer.Blk

open Numeration

/-- Bytes with the high bit set, and one without it. -/
def Terminated (bytes : Bytes) : Prop :=
  ∃ front last, bytes = front ++ [last] ∧ (∀ byte ∈ front, 128 ≤ byte.toNat) ∧ last.toNat < 128

def digitOf (byte : UInt8) : Nat := byte.toNat % 128

/-- The byte before the last one that stands for a digit. -/
def continuedByte (digit : Nat) : UInt8 := UInt8.ofNat (digit + 128)

def spelledFrom (start : Nat) (front : Bytes) (last : UInt8) : Nat :=
  valueFrom 128 start (front.map digitOf) * 128 + last.toNat

theorem low_bits (byte : UInt8) : (byte &&& 0x7f).toNat = digitOf byte := by
  rw [UInt8.toNat_and]
  exact Nat.and_two_pow_sub_one_eq_mod byte.toNat 7

theorem high_bit (byte : UInt8) : byte &&& 0x80 > 0 ↔ 128 ≤ byte.toNat := by
  have small := byte.toNat_lt
  have bit : (byte &&& 0x80).toNat = (byte.toNat.testBit 7).toNat * 2 ^ 7 := by
    rw [UInt8.toNat_and]
    exact Nat.and_two_pow byte.toNat 7
  rw [gt_iff_lt, UInt8.lt_iff_toNat_lt, bit, Nat.testBit_eq_decide_div_mod_eq]
  by_cases set : byte.toNat / 2 ^ 7 % 2 = 1
  · simp only [set, decide_true, Bool.toNat_true]
    change 0 < _ ↔ _
    omega
  · simp only [set, decide_false, Bool.toNat_false]
    change 0 < _ ↔ _
    omega

theorem digitOf_lt (byte : UInt8) : digitOf byte < 128 := Nat.mod_lt _ (by decide)

theorem shift_or (number : Nat) (byte : UInt8) :
    (number <<< 7) ||| (byte &&& 0x7f).toNat = number * 128 + digitOf byte := by
  rw [low_bits, ← Nat.shiftLeft_add_eq_or_of_lt (digitOf_lt byte), Nat.shiftLeft_eq]

theorem readVarint_continued (number : Nat) {byte : UInt8} (rest : Bytes)
    (flagged : 128 ≤ byte.toNat) :
    readVarint number (byte :: rest) =
      if number > (2 ^ 64 - 1) >>> 7 then .error .sizeTooLarge
      else if number * 128 + digitOf byte = 2 ^ 64 - 1 then .error .sizeTooLarge
      else readVarint (number * 128 + digitOf byte + 1) rest := by
  rw [readVarint, shift_or]
  refine if_congr Iff.rfl rfl ?_
  exact if_pos ((high_bit byte).mpr flagged)

theorem readVarint_final (number : Nat) {byte : UInt8} (rest : Bytes) (final : byte.toNat < 128) :
    readVarint number (byte :: rest) =
      if number > (2 ^ 64 - 1) >>> 7 then .error .sizeTooLarge
      else .ok (number * 128 + byte.toNat, rest) := by
  have whole : digitOf byte = byte.toNat := Nat.mod_eq_of_lt final
  rw [readVarint, shift_or, whole]
  refine if_congr Iff.rfl rfl ?_
  exact if_neg fun set => Nat.not_le.mpr final ((high_bit byte).mp set)

theorem readVarint_spelled {front : Bytes} {last : UInt8} (number : Nat) (rest : Bytes)
    (continued : ∀ byte ∈ front, 128 ≤ byte.toNat) (final : last.toNat < 128) :
    readVarint number (front ++ last :: rest) =
      if spelledFrom number front last < 2 ^ 64 then .ok (spelledFrom number front last, rest)
      else .error .sizeTooLarge := by
  induction front generalizing number with
  | nil =>
      have value : spelledFrom number [] last = number * 128 + last.toNat := rfl
      rw [List.nil_append, readVarint_final number rest final, value]
      by_cases large : number > (2 ^ 64 - 1) >>> 7
      · rw [if_pos large, if_neg (by omega)]
      · rw [if_neg large, if_pos (by omega)]
  | cons byte front ih =>
      have flagged := continued byte (List.mem_cons_self ..)
      have digit := digitOf_lt byte
      have value : spelledFrom number (byte :: front) last =
          spelledFrom (number * 128 + digitOf byte + 1) front last := rfl
      have grown := @le_valueFrom 128 (by decide) (number * 128 + digitOf byte + 1)
        (front.map digitOf)
      have least : (number * 128 + digitOf byte + 1) * 128 ≤
          spelledFrom (number * 128 + digitOf byte + 1) front last :=
        le_trans (Nat.mul_le_mul_right 128 grown) (Nat.le_add_right _ _)
      rw [List.cons_append, readVarint_continued number _ flagged, value]
      by_cases large : number > (2 ^ 64 - 1) >>> 7
      · rw [if_pos large, if_neg (by omega)]
      · rw [if_neg large]
        by_cases full : number * 128 + digitOf byte = 2 ^ 64 - 1
        · rw [if_pos full, if_neg (by omega)]
        · rw [if_neg full, ih _ fun other listed => continued other (List.mem_cons_of_mem _ listed)]

theorem toNat_continuedByte {digit : Nat} (small : digit < 128) :
    (continuedByte digit).toNat = digit + 128 := by
  have byte : digit + 128 < 256 := by omega
  exact UInt8.toNat_ofNat_of_lt byte

theorem continuedByte_digitOf {byte : UInt8} (flagged : 128 ≤ byte.toNat) :
    continuedByte (digitOf byte) = byte := by
  have small := byte.toNat_lt
  have digit : digitOf byte = byte.toNat % 128 := rfl
  apply UInt8.toNat_inj.mp
  rw [toNat_continuedByte (digitOf_lt byte)]
  omega

theorem digitOf_continuedByte {digit : Nat} (small : digit < 128) :
    digitOf (continuedByte digit) = digit := by
  rw [digitOf, toNat_continuedByte small]
  omega

theorem digits_small {front : Bytes} : ∀ digit ∈ front.map digitOf, digit < 128 := by
  intro digit listed
  obtain ⟨byte, _, rfl⟩ := List.mem_map.mp listed
  exact digitOf_lt byte

theorem front_of_digits {front : Bytes} (continued : ∀ byte ∈ front, 128 ≤ byte.toNat) :
    (front.map digitOf).map continuedByte = front := by
  rw [List.map_map]
  refine (List.map_congr_left fun byte listed => ?_).trans (List.map_id front)
  exact continuedByte_digitOf (continued byte listed)

theorem spelledFrom_injective {front other : Bytes} {last final : UInt8}
    (continued : ∀ byte ∈ front, 128 ≤ byte.toNat) (flagged : ∀ byte ∈ other, 128 ≤ byte.toNat)
    (ended : last.toNat < 128) (stopped : final.toNat < 128)
    (same : spelledFrom 0 front last = spelledFrom 0 other final) :
    front ++ [last] = other ++ [final] := by
  obtain ⟨numbers, lasts⟩ := split_last ended stopped same
  have digits := valueFrom_injective digits_small digits_small numbers
  have fronts : front = other := by
    rw [← front_of_digits continued, digits, front_of_digits flagged]
  rw [fronts, UInt8.toNat_inj.mp lasts]

theorem spelledFrom_surjective (number : Nat) :
    ∃ (front : Bytes) (last : UInt8), (∀ byte ∈ front, 128 ≤ byte.toNat) ∧ last.toNat < 128 ∧
      spelledFrom 0 front last = number := by
  obtain ⟨digits, small, value⟩ :=
    @valueFrom_surjective 128 (by decide) (number / 128)
  have low : number % 128 < 256 := by omega
  have bits : (UInt8.ofNat (number % 128)).toNat = number % 128 := UInt8.toNat_ofNat_of_lt low
  have front : (digits.map continuedByte).map digitOf = digits := by
    rw [List.map_map]
    refine (List.map_congr_left fun digit listed => ?_).trans (List.map_id digits)
    exact digitOf_continuedByte (small digit listed)
  refine ⟨digits.map continuedByte, UInt8.ofNat (number % 128), ?_, by omega, ?_⟩
  · intro byte listed
    obtain ⟨digit, member, rfl⟩ := List.mem_map.mp listed
    rw [toNat_continuedByte (small digit member)]
    omega
  · rw [spelledFrom, front, value, bits]
    omega

/-- The spellings of the numbers below `2 ^ 64` are read as these numbers, whatever follows them;
no number has two, and every other terminated byte string is refused. -/
theorem readVarint_bijective :
    (∀ number < 2 ^ 64, ∃ bytes, Terminated bytes ∧
      (∀ rest, readVarint 0 (bytes ++ rest) = .ok (number, rest)) ∧
      ∀ other rest left, Terminated other → readVarint 0 (other ++ rest) = .ok (number, left) →
        other = bytes) ∧
    ∀ bytes, Terminated bytes →
      (∃ number < 2 ^ 64, ∀ rest, readVarint 0 (bytes ++ rest) = .ok (number, rest)) ∨
      ∀ rest, readVarint 0 (bytes ++ rest) = .error .sizeTooLarge := by
  constructor
  · intro number fits
    obtain ⟨front, last, continued, ended, value⟩ := spelledFrom_surjective number
    refine ⟨front ++ [last], ⟨front, last, rfl, continued, ended⟩, ?_, ?_⟩
    · intro rest
      rw [List.append_assoc, List.singleton_append, readVarint_spelled 0 rest continued ended,
        value, if_pos fits]
    · rintro _ rest left ⟨other, final, rfl, flagged, stopped⟩ returned
      rw [List.append_assoc, List.singleton_append,
        readVarint_spelled 0 rest flagged stopped] at returned
      by_cases bounded : spelledFrom 0 other final < 2 ^ 64
      · rw [if_pos bounded] at returned
        cases returned
        exact spelledFrom_injective flagged continued stopped ended value.symm
      · rw [if_neg bounded] at returned
        cases returned
  · rintro _ ⟨front, last, rfl, continued, ended⟩
    by_cases fits : spelledFrom 0 front last < 2 ^ 64
    · refine Or.inl ⟨_, fits, fun rest => ?_⟩
      rw [List.append_assoc, List.singleton_append, readVarint_spelled 0 rest continued ended,
        if_pos fits]
    · refine Or.inr fun rest => ?_
      rw [List.append_assoc, List.singleton_append, readVarint_spelled 0 rest continued ended,
        if_neg fits]

example :
    readVarint 0 [128, 254, 254, 254, 254, 254, 254, 254, 254, 127] = .ok (2 ^ 64 - 1, []) ∧
      readVarint 0 [128, 254, 254, 254, 254, 254, 254, 254, 255, 0] =
        .error .sizeTooLarge := by
  decide

end WjkIndexer.Blk
