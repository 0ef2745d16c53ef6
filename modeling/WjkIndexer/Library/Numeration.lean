import Mathlib

/-!
Bijective numeration: a digit counts one more than its value, so that no digit is a zero and each
number is spelled in exactly one way.
-/

namespace Numeration

/-- The number that digits spell, behind those that spell `start`. -/
def valueFrom (base start : Nat) (digits : List Nat) : Nat :=
  digits.foldl (fun number digit => number * base + digit + 1) start

variable {base : Nat}

theorem valueFrom_cons (start digit : Nat) (rest : List Nat) :
    valueFrom base start (digit :: rest) = valueFrom base (start * base + digit + 1) rest := rfl

theorem valueFrom_concat (start digit : Nat) (digits : List Nat) :
    valueFrom base start (digits ++ [digit]) =
      valueFrom base start digits * base + digit + 1 := by
  rw [valueFrom, List.foldl_append]
  rfl

theorem le_valueFrom (positive : 0 < base) (start : Nat) (digits : List Nat) :
    start ≤ valueFrom base start digits := by
  induction digits generalizing start with
  | nil => exact Nat.le_refl start
  | cons digit rest ih =>
      have grown : start ≤ start * base := Nat.le_mul_of_pos_right start positive
      have later := ih (start * base + digit + 1)
      rw [valueFrom_cons]
      omega

theorem split_last {number other digit last : Nat} (first : digit < base) (second : last < base)
    (same : number * base + digit = other * base + last) : number = other ∧ digit = last := by
  have positive : 0 < base := Nat.zero_lt_of_lt first
  have quotients := congrArg (· / base) same
  have remainders := congrArg (· % base) same
  simp only [Nat.mul_comm _ base, Nat.mul_add_div positive, Nat.mul_add_mod,
    Nat.div_eq_of_lt first, Nat.div_eq_of_lt second, Nat.mod_eq_of_lt first,
    Nat.mod_eq_of_lt second, Nat.add_zero] at quotients remainders
  exact ⟨quotients, remainders⟩

theorem valueFrom_injective {digits others : List Nat} (small : ∀ digit ∈ digits, digit < base)
    (below : ∀ digit ∈ others, digit < base)
    (same : valueFrom base 0 digits = valueFrom base 0 others) : digits = others := by
  induction digits using List.reverseRecOn generalizing others with
  | nil =>
      rcases List.eq_nil_or_concat others with rfl | ⟨front, last, rfl⟩
      · rfl
      · rw [List.concat_eq_append, valueFrom_concat] at same
        exact absurd same (by simp [valueFrom])
  | append_singleton front digit ih =>
      rcases List.eq_nil_or_concat others with rfl | ⟨before, last, rfl⟩
      · rw [valueFrom_concat] at same
        exact absurd same (by simp [valueFrom])
      · rw [List.concat_eq_append] at same below ⊢
        rw [valueFrom_concat, valueFrom_concat] at same
        obtain ⟨fronts, rfl⟩ := split_last (small digit (by simp)) (below last (by simp))
          (Nat.succ.inj same)
        rw [ih (fun other listed => small other (List.mem_append_left _ listed))
          (fun other listed => below other (List.mem_append_left _ listed)) fronts]

theorem valueFrom_surjective (positive : 0 < base) (number : Nat) :
    ∃ digits : List Nat, (∀ digit ∈ digits, digit < base) ∧ valueFrom base 0 digits = number := by
  induction number using Nat.strongRecOn with
  | ind number ih =>
      cases number with
      | zero => exact ⟨[], by simp, rfl⟩
      | succ number =>
          have smaller : number / base < number + 1 :=
            Nat.lt_succ_of_le (Nat.div_le_self number base)
          obtain ⟨front, small, spelled⟩ := ih (number / base) smaller
          refine ⟨front ++ [number % base], ?_, ?_⟩
          · intro digit listed
            rcases List.mem_append.mp listed with early | last
            · exact small digit early
            · rw [List.mem_singleton.mp last]
              exact Nat.mod_lt number positive
          · rw [valueFrom_concat, spelled, Nat.div_add_mod']

end Numeration
