import Mathlib.Data.List.Basic
import Mathlib.Data.List.Range

/-!
Lists that are read in numbered pages of one size, the first of which has the number one. The place
at which a page starts is counted modulo a limit, as a machine word counts it.
-/

namespace Pages

variable {α : Type}

def page (limit number size : Nat) (source : List α) : List α :=
  (source.drop ((number - 1) * size % limit)).take size

/-- The number of pages: a last page that is not full counts. -/
def pageCount (size length : Nat) : Nat := (length + size - 1) / size

theorem le_pageCount_mul {size : Nat} (positive : 0 < size) (length : Nat) :
    length ≤ pageCount size length * size := by
  have split := Nat.div_add_mod (length + size - 1) size
  have small := Nat.mod_lt (length + size - 1) positive
  rw [pageCount, Nat.mul_comm]
  omega

theorem lastPage_lt {size length : Nat} (positive : 0 < size) (some : 0 < length) :
    (pageCount size length - 1) * size < length := by
  have whole : pageCount size length * size ≤ length + size - 1 := Nat.div_mul_le_self _ _
  rw [Nat.sub_mul, Nat.one_mul]
  omega

theorem flatMap_pages {limit size : Nat} (source : List α) {count : Nat}
    (inside : (count - 1) * size < limit) :
    (List.range' 1 count).flatMap (fun number => page limit number size source) =
      source.take (count * size) := by
  induction count with
  | zero => simp
  | succ count ih =>
      rw [Nat.add_sub_cancel] at inside
      have before : (count - 1) * size < limit :=
        (Nat.mul_le_mul_right size (Nat.sub_le count 1)).trans_lt inside
      rw [List.range'_1_concat, List.flatMap_append, ih before, List.flatMap_singleton, page,
        Nat.add_sub_cancel_left, Nat.mod_eq_of_lt inside, Nat.succ_mul, List.take_add]

theorem pages_all {limit size : Nat} (positive : 0 < size) {source : List α}
    (fits : source.length ≤ limit) :
    (List.range' 1 (pageCount size source.length)).flatMap
      (fun number => page limit number size source) = source := by
  cases source with
  | nil => simp [page]
  | cons first rest =>
      have inside := lastPage_lt positive (List.length_pos_of_mem (@List.mem_cons_self _ first rest))
      rw [flatMap_pages _ (inside.trans_le fits),
        List.take_of_length_le (le_pageCount_mul positive _)]

theorem page_behind {limit size number : Nat} (positive : 0 < size) {source : List α}
    (inside : (number - 1) * size < limit) (behind : pageCount size source.length < number) :
    page limit number size source = [] := by
  have most := le_pageCount_mul positive source.length
  have least : pageCount size source.length * size ≤ (number - 1) * size :=
    Nat.mul_le_mul_right size (by omega)
  rw [page, Nat.mod_eq_of_lt inside, List.drop_eq_nil_of_le (most.trans least), List.take_nil]

end Pages
