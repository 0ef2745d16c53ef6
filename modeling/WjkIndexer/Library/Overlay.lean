import WjkIndexer.Library.Table

/-!
A cache in front of a store: what is read and written through a part of the store that
has been loaded, compared with the same reads and writes on the whole of it.
-/

namespace FiniteTable

variable {K V : Type} [DecidableEq K]

/-- `part` began as `loaded`, and what it holds over `stored` is `whole`. -/
structure Overlay (stored loaded part whole : Table K V) : Prop where
  sub : ∀ key value, loaded.get key = some value → stored.get key = some value
  shown : ∀ key, whole.get key = (part.get key).or (stored.get key)
  grown : ∀ key, part.get key = none → loaded.get key = none

namespace Overlay

variable {stored loaded part whole : Table K V}

theorem start (sub : ∀ key value, loaded.get key = some value → stored.get key = some value) :
    Overlay stored loaded loaded stored where
  sub := sub
  shown key := by
    cases found : loaded.get key with
    | none => rfl
    | some value => exact sub key value found
  grown _ absent := absent

theorem set (overlay : Overlay stored loaded part whole) (key : K) (value : V) :
    Overlay stored loaded (part.set key value) (whole.set key value) where
  sub := overlay.sub
  shown query := by
    rw [Table.get_set, Table.get_set]
    split
    · rfl
    · exact overlay.shown query
  grown query absent := by
    rw [Table.get_set] at absent
    split at absent
    · cases absent
    · exact overlay.grown query absent

theorem get_eq (overlay : Overlay stored loaded part whole) {key : K}
    (settled : loaded.get key = stored.get key) : part.get key = whole.get key := by
  rw [overlay.shown]
  cases found : part.get key with
  | none =>
      have unloaded := overlay.grown key found
      rw [← settled, unloaded]
      rfl
  | some value => rfl

theorem getD_eq {A : Type} (overlay : Overlay stored loaded part whole) {key : K} {fallback : V}
    (view : V → A)
    (settled : view ((loaded.get key).getD fallback) = view ((stored.get key).getD fallback)) :
    view ((part.get key).getD fallback) = view ((whole.get key).getD fallback) := by
  rw [overlay.shown]
  cases found : part.get key with
  | none =>
      have unloaded := overlay.grown key found
      rw [unloaded] at settled
      exact settled
  | some value => rfl

theorem getD_same (overlay : Overlay stored loaded part whole) {key : K} {fallback : V}
    (settled : (loaded.get key).getD fallback = (stored.get key).getD fallback) :
    (part.get key).getD fallback = (whole.get key).getD fallback :=
  overlay.getD_eq id settled

theorem written (sub : ∀ key value, loaded.get key = some value → stored.get key = some value)
    (grown : ∀ key, part.get key = none → loaded.get key = none) :
    Overlay stored loaded part (stored.extend part) where
  sub := sub
  shown _ := Table.get_extend _ _ _
  grown := grown

theorem extend_part (overlay : Overlay stored loaded part whole) : stored.extend part = whole := by
  apply Table.ext
  intro key
  rw [Table.get_extend, overlay.shown]

theorem write_back (overlay : Overlay stored loaded part whole) :
    stored.extend part = stored.extend whole := by
  apply Table.ext
  intro key
  rw [Table.get_extend, Table.get_extend, overlay.shown]
  cases part.get key <;> cases stored.get key <;> rfl

end Overlay

end FiniteTable
