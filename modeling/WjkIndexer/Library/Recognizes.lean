import Mathlib.Data.List.Basic

/-!
Parsers that take a value from the front of a list, and the forms of the values that they accept.
-/

namespace Recognition

variable {τ α ε : Type}

/-- A parser accepts the forms of its values at the front of its input, and nothing else. -/
def Recognizes (parser : List τ → Except ε (α × List τ)) (form : List τ → α → Prop) : Prop :=
  ∀ input value rest, parser input = .ok (value, rest) ↔
    ∃ front, form front value ∧ input = front ++ rest

namespace Recognizes

variable {parser : List τ → Except ε (α × List τ)} {form : List τ → α → Prop}

theorem accepts (recognizes : Recognizes parser form) {front : List τ} {value : α}
    (formed : form front value) (rest : List τ) : parser (front ++ rest) = .ok (value, rest) :=
  (recognizes _ _ _).mpr ⟨front, formed, rfl⟩

theorem unique (recognizes : Recognizes parser form) {front other rest left : List τ}
    {value found : α} (first : form front value) (second : form other found)
    (same : front ++ rest = other ++ left) : value = found ∧ rest = left := by
  have read := recognizes.accepts first rest
  rw [same, recognizes.accepts second left] at read
  cases read
  exact ⟨rfl, rfl⟩

theorem truncated (recognizes : Recognizes parser form) {kept lost : List τ} {value : α}
    (formed : form (kept ++ lost) value) (missing : lost ≠ []) :
    ∃ fault, parser kept = .error fault := by
  cases result : parser kept with
  | error fault => exact ⟨fault, rfl⟩
  | ok read =>
      obtain ⟨found, left⟩ := read
      obtain ⟨other, second, rfl⟩ := (recognizes _ _ _).mp result
      have same : other ++ left ++ lost ++ [] = other ++ (left ++ lost) := by simp
      obtain ⟨_, none⟩ := recognizes.unique formed second same
      exact absurd (List.append_eq_nil_iff.mp none.symm).2 missing

end Recognizes

end Recognition
