import Mathlib

/-!
Byte strings: fixed-width numbers in either byte order, the order of byte strings, and their
division into chunks.
-/

namespace ByteString

instance byteOrder : LinearOrder UInt8 where
  le_refl := UInt8.le_refl
  le_trans _ _ _ := UInt8.le_trans
  le_antisymm _ _ := UInt8.le_antisymm
  le_total := UInt8.le_total
  lt_iff_le_not_ge first second := by
    simp only [UInt8.lt_iff_toNat_lt, UInt8.le_iff_toNat_le]
    omega
  toDecidableLE := inferInstance

/-- The bytes of a number, the highest first; what does not fit is cut off. -/
def beBytes : Nat → Nat → List UInt8
  | 0, _ => []
  | width + 1, number => UInt8.ofNat (number / 256 ^ width) :: beBytes width number

def ofBeBytes (bytes : List UInt8) : Nat :=
  bytes.foldl (fun number byte => 256 * number + byte.toNat) 0

/-- The bytes of a number, the lowest first. -/
def leBytes : Nat → Nat → List UInt8
  | 0, _ => []
  | width + 1, number => UInt8.ofNat number :: leBytes width (number / 256)

def ofLeBytes : List UInt8 → Nat
  | [] => 0
  | byte :: rest => byte.toNat + 256 * ofLeBytes rest

@[simp] theorem length_beBytes (width number : Nat) : (beBytes width number).length = width := by
  induction width with
  | zero => rfl
  | succ width ih => rw [beBytes, List.length_cons, ih]

@[simp] theorem length_leBytes (width number : Nat) : (leBytes width number).length = width := by
  induction width generalizing number with
  | zero => rfl
  | succ width ih => rw [leBytes, List.length_cons, ih]

theorem foldl_beBytes (width number start : Nat) :
    (beBytes width number).foldl (fun number byte => 256 * number + byte.toNat) start =
      start * 256 ^ width + number % 256 ^ width := by
  induction width generalizing start with
  | zero => simp [beBytes, Nat.mod_one]
  | succ width ih =>
      have digit : (UInt8.ofNat (number / 256 ^ width)).toNat = number / 256 ^ width % 256 :=
        UInt8.toNat_ofNat'
      have split : number % 256 ^ (width + 1) =
          number % 256 ^ width + 256 ^ width * (number / 256 ^ width % 256) := by
        rw [Nat.pow_succ, Nat.mod_mul]
      rw [beBytes, List.foldl_cons, ih, digit, split, Nat.pow_succ]
      ring

theorem ofBeBytes_beBytes {width number : Nat} (fits : number < 256 ^ width) :
    ofBeBytes (beBytes width number) = number := by
  rw [ofBeBytes, foldl_beBytes, Nat.mod_eq_of_lt fits]
  omega

theorem leBytes_ofLeBytes (bytes : List UInt8) :
    leBytes bytes.length (ofLeBytes bytes) = bytes := by
  induction bytes with
  | nil => rfl
  | cons byte rest ih =>
      have small : byte.toNat < 256 := byte.toNat_lt
      have digit : UInt8.ofNat (byte.toNat + 256 * ofLeBytes rest) = byte := by
        apply UInt8.toNat_inj.mp
        rw [UInt8.toNat_ofNat']
        omega
      have quotient : (byte.toNat + 256 * ofLeBytes rest) / 256 = ofLeBytes rest := by omega
      rw [List.length_cons, ofLeBytes, leBytes, digit, quotient, ih]

theorem ofLeBytes_leBytes {width number : Nat} (fits : number < 256 ^ width) :
    ofLeBytes (leBytes width number) = number := by
  induction width generalizing number with
  | zero =>
      rw [Nat.pow_zero] at fits
      rw [leBytes, ofLeBytes]
      omega
  | succ width ih =>
      have digit : (UInt8.ofNat number).toNat = number % 256 := UInt8.toNat_ofNat'
      have quotient : number / 256 < 256 ^ width := by
        rw [Nat.pow_succ] at fits
        omega
      rw [leBytes, ofLeBytes, digit, ih quotient]
      omega

/-! The order of byte strings. -/

theorem append_lt_append {first second tail other : List UInt8}
    (width : first.length = second.length) :
    first ++ tail < second ++ other ↔ first < second ∨ first = second ∧ tail < other := by
  induction first generalizing second with
  | nil =>
      obtain rfl := List.length_eq_zero_iff.mp width.symm
      simp
  | cons byte rest ih =>
      cases second with
      | nil => simp at width
      | cons head others =>
          rw [List.length_cons, List.length_cons, Nat.succ_inj] at width
          rw [List.cons_append, List.cons_append, List.cons_lt_cons_iff, List.cons_lt_cons_iff,
            ih width, List.cons.injEq]
          tauto

theorem beBytes_lt {width first second : Nat} (fits : first < 256 ^ width)
    (bound : second < 256 ^ width) :
    beBytes width first < beBytes width second ↔ first < second := by
  suffices general : ∀ first second : Nat, beBytes width first < beBytes width second ↔
      first % 256 ^ width < second % 256 ^ width by
    rw [general, Nat.mod_eq_of_lt fits, Nat.mod_eq_of_lt bound]
  clear fits bound
  induction width with
  | zero => simp [beBytes, Nat.mod_one]
  | succ width ih =>
      intro first second
      have digit : ∀ number, (UInt8.ofNat (number / 256 ^ width)).toNat =
          number / 256 ^ width % 256 := fun _ => UInt8.toNat_ofNat'
      have split : ∀ number, number % 256 ^ (width + 1) =
          number % 256 ^ width + 256 ^ width * (number / 256 ^ width % 256) := by
        intro number
        rw [Nat.pow_succ, Nat.mod_mul]
      have lowFirst : first % 256 ^ width < 256 ^ width := Nat.mod_lt _ (by positivity)
      have lowSecond : second % 256 ^ width < 256 ^ width := Nat.mod_lt _ (by positivity)
      rw [beBytes, beBytes, List.cons_lt_cons_iff, ih, UInt8.lt_iff_toNat_lt, ← UInt8.toNat_inj,
        digit, digit, split first, split second]
      generalize first / 256 ^ width % 256 = high at *
      generalize second / 256 ^ width % 256 = top at *
      generalize first % 256 ^ width = low at *
      generalize second % 256 ^ width = bottom at *
      generalize 256 ^ width = base at *
      rcases Nat.lt_trichotomy high top with less | same | more
      · have step : base * high + base ≤ base * top := by
          rw [← Nat.mul_succ]
          exact Nat.mul_le_mul_left base less
        omega
      · subst same
        omega
      · have step : base * top + base ≤ base * high := by
          rw [← Nat.mul_succ]
          exact Nat.mul_le_mul_left base more
        omega

theorem replicate_zero_le (bytes : List UInt8) : List.replicate bytes.length 0 ≤ bytes := by
  rw [← not_lt]
  induction bytes with
  | nil => exact List.not_lt_nil _
  | cons byte rest ih =>
      intro less
      rw [List.length_cons, List.replicate_succ, List.cons_lt_cons_iff] at less
      rcases less with below | ⟨_, later⟩
      · rw [UInt8.lt_iff_toNat_lt, UInt8.toNat_zero] at below
        omega
      · exact ih later

theorem le_replicate_max (bytes : List UInt8) : bytes ≤ List.replicate bytes.length 255 := by
  rw [← not_lt]
  induction bytes with
  | nil => exact List.not_lt_nil _
  | cons byte rest ih =>
      intro less
      rw [List.length_cons, List.replicate_succ, List.cons_lt_cons_iff] at less
      rcases less with above | ⟨_, later⟩
      · have small := byte.toNat_lt
        rw [UInt8.lt_iff_toNat_lt] at above
        have greatest : (255 : UInt8).toNat = 255 := rfl
        omega
      · exact ih later

theorem beBytes_inj {width first second : Nat} (fits : first < 256 ^ width)
    (bound : second < 256 ^ width) (same : beBytes width first = beBytes width second) :
    first = second := by
  rw [← ofBeBytes_beBytes fits, same, ofBeBytes_beBytes bound]

/-! Chunks. -/

/-- Chunks of `size` elements; the last one may be shorter. The length is fuel enough when
`size` is positive. -/
def chunksFrom {α : Type} (size : Nat) : Nat → List α → List (List α)
  | 0, _ => []
  | _ + 1, [] => []
  | fuel + 1, first :: rest =>
      (first :: rest).take size :: chunksFrom size fuel ((first :: rest).drop size)

def chunks {α : Type} (size : Nat) (elements : List α) : List (List α) :=
  chunksFrom size elements.length elements

theorem chunks_head {α : Type} {size : Nat} {elements : List α} (nonempty : elements ≠ []) :
    ∃ rest, chunks size elements = elements.take size :: rest := by
  cases elements with
  | nil => exact absurd rfl nonempty
  | cons first rest => exact ⟨_, rfl⟩

theorem chunks_flatten {α : Type} {size : Nat} (positive : 0 < size) {pieces : List (List α)}
    (sized : ∀ piece ∈ pieces, piece.length = size) : chunks size pieces.flatten = pieces := by
  suffices general : ∀ fuel, pieces.flatten.length ≤ fuel →
      chunksFrom size fuel pieces.flatten = pieces from general _ (Nat.le_refl _)
  induction pieces with
  | nil =>
      intro fuel _
      cases fuel <;> rfl
  | cons piece rest ih =>
      intro fuel enough
      have length := sized piece List.mem_cons_self
      rw [List.flatten_cons, List.length_append] at enough
      cases shape : piece with
      | nil =>
          rw [shape, List.length_nil] at length
          omega
      | cons first others =>
          cases fuel with
          | zero => omega
          | succ fuel =>
              have later := ih (fun other listed => sized other (List.mem_cons_of_mem _ listed))
                fuel (by omega)
              rw [← shape, List.flatten_cons]
              rw [shape, List.cons_append, chunksFrom, ← List.cons_append, ← shape]
              rw [List.take_left' length, List.drop_left' length, later]

end ByteString
